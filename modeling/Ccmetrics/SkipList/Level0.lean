/-
# SkipList.Level0 -- the list of all entries

Every node that has been linked and is not marked is on the chain of `next_[0]` pointers from
`head_`, and the chain has strictly increasing keys (`Memory`). `head_` ranks below all keys.

Marked nulls start every index list and `insert` gives up as soon as it sees one, so no index
list ever gets a node (`Memory.index`); above level 0 `find` and `insert` only ever look at
`head_`. `Local` says what a thread knows at each point, and `Extends` what no step takes back.
-/
import Mathlib.Order.WithBot
import Mathlib.Data.Finset.Card
import Ccmetrics.Theory.Chain
import Ccmetrics.SkipList.Steps

namespace Ccmetrics.SkipList

set_option autoImplicit false
set_option linter.unusedSectionVars false

variable {T Key Value : Type} [DecidableEq T] [LinearOrder Key] [Inhabited Key] [Inhabited Value]

namespace Ptr

@[simp] theorem target_clear (p : Ptr) : p.clear.target = p.target := by cases p <;> rfl
@[simp] theorem target_mark (p : Ptr) : p.mark.target = p.target := by cases p <;> rfl
@[simp] theorem marked0_mark (p : Ptr) : p.mark.marked0 = true := by cases p <;> rfl
@[simp] theorem marked0_clear (p : Ptr) : p.clear.marked0 = false := by cases p <;> rfl

theorem eq_clear_iff (p : Ptr) : p = p.clear ↔ p.marked0 = false := by
  cases p <;> simp [clear, marked0]

theorem mark_of_marked0 {p : Ptr} (isMarked : p.marked0 = true) : p.mark = p := by
  cases p <;> first | rfl | cases isMarked

@[simp] theorem isMarked_zero (p : Ptr) : p.isMarked 0 = p.marked0 := rfl

end Ptr

namespace State

variable {s s' : State T Key Value} {t u : T} {e : Effect Key Value} {nx : Next Key Value}
variable {k : Key}

/-- The successor of a node on level `i`. -/
def edgeAt (s : State T Key Value) (i : Nat) (a : Addr) : Option Addr :=
  ((s.node a).next i).target

/-- The chain from `head_` on level `i`, without `head_` itself. -/
def chainAt (s : State T Key Value) (i : Nat) : List Addr :=
  Theory.Chain.follow (s.edgeAt i) s.fresh head

/-- The chain of all entries, dead ones included. -/
abbrev chain (s : State T Key Value) : List Addr := s.chainAt 0

/-- `Node::dead`. -/
def dead (s : State T Key Value) (a : Addr) : Bool := ((s.node a).next 0).marked0

def key (s : State T Key Value) (a : Addr) : Key := (s.node a).key

/-- The place of a node in the order: `head_` comes before every key. -/
def rank (s : State T Key Value) (a : Addr) : WithBot Key := if a = head then ⊥ else s.key a

/-- A node that other threads may see. -/
def Public (s : State T Key Value) (a : Addr) : Prop := a = head ∨ s.linked a = true

structure Memory (s : State T Key Value) : Prop where
  chained : Theory.Chain.Linked (s.edgeAt 0) (head :: s.chain)
  sorted : (head :: s.chain).Pairwise fun a b => s.rank a < s.rank b
  member : ∀ a ∈ s.chain, s.linked a = true
  live : ∀ a, s.linked a = true → s.dead a = false → a ∈ s.chain
  known : ∀ a, s.linked a = true → head < a ∧ a < s.fresh
  started : head < s.fresh
  headAlive : s.dead head = false
  index : ∀ a i, 0 < i → (s.node a).next i = .markedNull

theorem rank_head : s.rank head = ⊥ := if_pos rfl

theorem Memory.rank_linked (memory : s.Memory) {a : Addr} (linked : s.linked a = true) :
    s.rank a = s.key a := by
  have := (memory.known a linked).1
  exact if_neg (Nat.ne_of_gt this)

theorem sorted_nodup {l : List Addr} (sorted : l.Pairwise fun a b => s.rank a < s.rank b) :
    l.Nodup := by
  refine List.Pairwise.imp ?_ sorted
  rintro a b below rfl
  exact lt_irrefl _ below

theorem chain_length {l : List Addr} (nodup : l.Nodup) (known : ∀ a ∈ l, a < s.fresh) :
    l.length ≤ s.fresh := by
  have subset : l.toFinset ⊆ Finset.range s.fresh := by
    intro a member
    exact Finset.mem_range.2 (known a (List.mem_toFinset.1 member))
  have := Finset.card_le_card subset
  rwa [List.toFinset_card_of_nodup nodup, Finset.card_range] at this

/-- A chain through ordered, allocated nodes is the chain. -/
theorem chain_eq {l : List Addr} (linked : Theory.Chain.Linked (s.edgeAt 0) (head :: l))
    (sorted : (head :: l).Pairwise fun a b => s.rank a < s.rank b)
    (known : ∀ a ∈ l, a < s.fresh) : s.chain = l :=
  Theory.Chain.follow_eq linked
    (chain_length (List.nodup_cons.1 (sorted_nodup sorted)).2 known)

theorem Memory.onChain (memory : s.Memory) {a : Addr} (shared : s.Public a)
    (alive : s.dead a = false) : a ∈ head :: s.chain := by
  rcases shared with rfl | linked
  · exact List.mem_cons_self ..
  · exact List.mem_cons_of_mem _ (memory.live a linked alive)

/-- The successor of a node of the chain is on the chain. -/
theorem Memory.next_mem (memory : s.Memory) {a b : Addr} (member : a ∈ head :: s.chain)
    (next : s.edgeAt 0 a = some b) : b ∈ s.chain := by
  obtain ⟨l₁, l₂, split⟩ := List.append_of_mem member
  have chained := memory.chained
  rw [split] at chained
  have first := (Theory.Chain.linked_next chained).symm.trans next
  have inSplit : b ∈ l₂ := List.mem_of_head? first
  have : b ∈ (head :: s.chain).tail := by
    rw [split]
    cases l₁ with
    | nil => exact inSplit
    | cons c rest => exact List.mem_append_right _ (List.mem_cons_of_mem _ inSplit)
  exact this

/-- What a shared node points to, unmarked, is on the chain. -/
theorem Memory.points (memory : s.Memory) {a b : Addr} (shared : s.Public a)
    (points : (s.node a).next 0 = .node b) : b ∈ s.chain :=
  memory.next_mem (memory.onChain shared (by simp [dead, points, Ptr.marked0]))
    (by simp [edgeAt, points, Ptr.target])

/-! ## What no step takes back -/

structure Extends (s s' : State T Key Value) : Prop where
  fresh : s.fresh ≤ s'.fresh
  key : ∀ a < s.fresh, s'.key a = s.key a
  linked : ∀ a, s.linked a = true → s'.linked a = true
  dead : ∀ a, s.linked a = true → s.dead a = true → (s'.node a).next 0 = (s.node a).next 0

/-! ## The chain after each kind of write -/

theorem memory_of {l : List Addr} (chained : Theory.Chain.Linked (s.edgeAt 0) (head :: l))
    (sorted : (head :: l).Pairwise fun a b => s.rank a < s.rank b)
    (member : ∀ a ∈ l, s.linked a = true)
    (live : ∀ a, s.linked a = true → s.dead a = false → a ∈ l)
    (known : ∀ a, s.linked a = true → head < a ∧ a < s.fresh) (started : head < s.fresh)
    (headAlive : s.dead head = false)
    (index : ∀ a i, 0 < i → (s.node a).next i = .markedNull) : s.Memory ∧ s.chain = l := by
  have same := chain_eq chained sorted fun a inList => (known a (member a inList)).2
  rw [← same] at chained sorted member live
  exact ⟨⟨chained, sorted, member, live, known, started, headAlive, index⟩, same⟩

theorem rank_congr {l : List Addr} (key : ∀ a ∈ l, s'.key a = s.key a)
    (sorted : l.Pairwise fun a b => s.rank a < s.rank b) :
    l.Pairwise fun a b => s'.rank a < s'.rank b := by
  refine List.Pairwise.imp_of_mem ?_ sorted
  intro a b inA inB below
  simpa [rank, key a inA, key b inB] using below

/-- Writes that no shared level-0 pointer sees. -/
theorem Memory.congr (memory : s.Memory)
    (next : ∀ a, s.Public a → (s'.node a).next 0 = (s.node a).next 0)
    (linked : s'.linked = s.linked) (key : ∀ a < s.fresh, s'.key a = s.key a)
    (fresh : s.fresh ≤ s'.fresh)
    (index : ∀ a i, 0 < i → (s'.node a).next i = .markedNull) :
    s'.Memory ∧ s'.chain = s.chain := by
  have shared : ∀ a ∈ head :: s.chain, s.Public a := by
    intro a member
    rcases List.mem_cons.1 member with rfl | inChain
    · exact .inl rfl
    · exact .inr (memory.member a inChain)
  have known : ∀ a, s.Public a → a < s.fresh := by
    rintro a (rfl | isLinked)
    · exact memory.started
    · exact (memory.known a isLinked).2
  refine memory_of ?_ ?_ ?_ ?_ ?_ ?_ ?_ index
  · refine Theory.Chain.linked_congr memory.chained fun a member => ?_
    simp [edgeAt, next a (shared a member)]
  · exact rank_congr (fun a member => key a (known a (shared a member))) memory.sorted
  · rw [linked]; exact memory.member
  · intro a isLinked alive
    rw [linked] at isLinked
    exact memory.live a isLinked (by simpa [dead, next a (.inr isLinked)] using alive)
  · intro a isLinked
    rw [linked] at isLinked
    exact ⟨(memory.known a isLinked).1, Nat.lt_of_lt_of_le (memory.known a isLinked).2 fresh⟩
  · exact Nat.lt_of_lt_of_le memory.started fresh
  · simpa [dead, next head (.inl rfl)] using memory.headAlive

@[simp] theorem setNext_next (s : State T Key Value) (a b : Addr) (i j : Nat) (p : Ptr) :
    ((s.setNext a i p).node b).next j = if b = a ∧ j = i then p else (s.node b).next j := by
  by_cases same : b = a
  · subst same
    by_cases level : j = i <;> simp [setNext, modify, level]
  · simp [setNext, modify, same]

@[simp] theorem setNext_key (s : State T Key Value) (a b : Addr) (i : Nat) (p : Ptr) :
    (s.setNext a i p).key b = s.key b := by
  by_cases same : b = a <;> simp [key, setNext, modify, same]

@[simp] theorem setNext_linked (s : State T Key Value) (a : Addr) (i : Nat) (p : Ptr) :
    (s.setNext a i p).linked = s.linked := rfl

@[simp] theorem setNext_fresh (s : State T Key Value) (a : Addr) (i : Nat) (p : Ptr) :
    (s.setNext a i p).fresh = s.fresh := rfl

/-- The linking exchange of `insert`: `n` comes behind `prev`. -/
theorem Memory.link (memory : s.Memory) {prev n : Addr} {cur : Ptr} (shared : s.Public prev)
    (below : s.rank prev < s.key n) (points : (s.node prev).next 0 = cur)
    (alive : cur.marked0 = false) (above : ∀ c, cur = .node c → s.key n < s.key c)
    (stored : (s.node n).next 0 = cur) (new : s.linked n = false) (known : head < n ∧ n < s.fresh)
    (same : ∀ a i, (s'.node a).next i = ((s.setNext prev 0 (.node n)).node a).next i)
    (key : s'.key = s.key) (fresh : s'.fresh = s.fresh)
    (linked : s'.linked = fun x => if x = n then true else s.linked x) :
    s'.Memory ∧ ∀ a, a ∈ s'.chain ↔ a = n ∨ a ∈ s.chain := by
  have onChain : prev ∈ head :: s.chain :=
    memory.onChain shared (by simpa [dead, points] using alive)
  obtain ⟨l₁, l₂, split⟩ := List.append_of_mem onChain
  have chained := memory.chained
  have sorted := memory.sorted
  rw [split] at chained sorted
  have notHead : n ≠ head := Nat.ne_of_gt known.1
  have outside : n ∉ s.chain := by
    intro inChain
    rw [memory.member n inChain] at new
    cases new
  have apart : n ≠ prev := by
    rintro rfl
    exact outside ((List.mem_cons.1 onChain).resolve_left notHead)
  have rankN : s.rank n = s.key n := if_neg notHead
  have ordered : (l₁ ++ prev :: n :: l₂).Pairwise fun a b => s.rank a < s.rank b := by
    refine Theory.Chain.pairwise_insert (r := fun a b => s.rank a < s.rank b)
      (fun _ _ _ => lt_trans) sorted (by rwa [rankN]) ?_
    intro c first
    have next : s.edgeAt 0 prev = some c := (Theory.Chain.linked_next chained).trans first
    have pointer : cur = .node c := by
      rw [edgeAt, points] at next
      cases cur <;> simp_all [Ptr.target, Ptr.marked0]
    have inChain : c ∈ s.chain := memory.next_mem onChain next
    rw [rankN, memory.rank_linked (memory.member c inChain), WithBot.coe_lt_coe]
    exact above c pointer
  -- the new list, with `head_` split off again
  obtain ⟨l, newList⟩ : ∃ l, head :: l = l₁ ++ prev :: n :: l₂ := by
    cases l₁ with
    | nil =>
        simp only [List.nil_append, List.cons.injEq] at split
        exact ⟨n :: l₂, by simp [split.1]⟩
    | cons a rest =>
        simp only [List.cons_append, List.cons.injEq] at split
        exact ⟨rest ++ prev :: n :: l₂, by simp [split.1]⟩
  rw [← newList] at ordered
  have headOut : head ∉ l := (List.nodup_cons.1 (sorted_nodup ordered)).1
  have headOld : head ∉ s.chain := (List.nodup_cons.1 (sorted_nodup memory.sorted)).1
  have inNew : ∀ a, a ∈ l ↔ a = n ∨ a ∈ s.chain := by
    intro a
    have both : a ∈ head :: l ↔ a = n ∨ a ∈ head :: s.chain := by
      rw [newList, split]
      simp only [List.mem_append, List.mem_cons]
      tauto
    by_cases isHead : a = head
    · subst isHead
      simp [headOut, headOld, notHead.symm]
    · simpa [isHead] using both
  have prevAlive : ∀ a, s'.dead a = false → a ≠ n → s.dead a = false := by
    intro a alive' ne
    by_cases isPrev : a = prev
    · subst isPrev; simpa [dead, points] using alive
    · simpa [dead, same, isPrev] using alive'
  have result := memory_of (s := s') (l := l) ?_ (rank_congr (fun a _ => by rw [key]) ordered)
    ?_ ?_ ?_ ?_ ?_ ?_
  · exact ⟨result.1, by rw [result.2]; exact inNew⟩
  · rw [newList]
    refine Theory.Chain.linked_insert chained (sorted_nodup sorted) ?_ ?_ fun a member ne => ?_
    · simp [edgeAt, same, Ptr.target]
    · simp [edgeAt, same, apart, stored, points]
    · simp [edgeAt, same, ne]
  · intro a member
    rw [linked]
    rcases (inNew a).1 member with rfl | old
    · simp
    · simp [memory.member a old]
  · intro a isLinked alive'
    by_cases isNew : a = n
    · exact (inNew a).2 (.inl isNew)
    · rw [linked] at isLinked
      simp only [isNew, if_false] at isLinked
      exact (inNew a).2 (.inr (memory.live a isLinked (prevAlive a alive' isNew)))
  · intro a isLinked
    rw [fresh]
    by_cases isNew : a = n
    · rw [isNew]; exact known
    · rw [linked] at isLinked
      simp only [isNew, if_false] at isLinked
      exact memory.known a isLinked
  · rw [fresh]; exact memory.started
  · by_cases isPrev : head = prev
    · simp [dead, same, isPrev, Ptr.marked0]
    · simpa [dead, same, isPrev] using memory.headAlive
  · intro a i above
    simpa [same, Nat.ne_of_gt above] using memory.index a i above

/-- The unlinking exchange of `find`: `prev` is swung past the dead node `cur`. -/
theorem Memory.unlink (memory : s.Memory) {prev cur : Addr} (shared : s.Public prev)
    (points : (s.node prev).next 0 = .node cur) (isDead : s.dead cur = true)
    (same : ∀ a i, (s'.node a).next i =
      ((s.setNext prev 0 ((s.node cur).next 0).clear).node a).next i)
    (key : s'.key = s.key) (fresh : s'.fresh = s.fresh) (linked : s'.linked = s.linked) :
    s'.Memory ∧ ∀ a, a ∈ s'.chain ↔ a ∈ s.chain ∧ a ≠ cur := by
  have alive : s.dead prev = false := by simp [dead, points, Ptr.marked0]
  have onChain : prev ∈ head :: s.chain := memory.onChain shared alive
  obtain ⟨l₁, l₂, split⟩ := List.append_of_mem onChain
  have chained := memory.chained
  have sorted := memory.sorted
  rw [split] at chained sorted
  have first : l₂.head? = some cur :=
    (Theory.Chain.linked_next chained).symm.trans (by simp [edgeAt, points, Ptr.target])
  obtain ⟨l₃, rfl⟩ : ∃ l₃, l₂ = cur :: l₃ := List.head?_eq_some_iff.1 first
  have apart : cur ≠ prev := by rintro rfl; rw [alive] at isDead; cases isDead
  have curNotHead : cur ≠ head := by
    rintro rfl; rw [memory.headAlive] at isDead; cases isDead
  have shorter : (l₁ ++ prev :: l₃).Sublist (l₁ ++ prev :: cur :: l₃) :=
    (List.Sublist.refl l₁).append ((List.sublist_cons_self cur l₃).cons_cons prev)
  have ordered := sorted.sublist shorter
  obtain ⟨l, newList⟩ : ∃ l, head :: l = l₁ ++ prev :: l₃ := by
    cases l₁ with
    | nil =>
        simp only [List.nil_append, List.cons.injEq] at split
        exact ⟨l₃, by simp [split.1]⟩
    | cons a rest =>
        simp only [List.cons_append, List.cons.injEq] at split
        exact ⟨rest ++ prev :: l₃, by simp [split.1]⟩
  have curOut : cur ∉ l₁ ++ prev :: l₃ := by
    have nodup := sorted_nodup sorted
    rw [List.append_cons, List.nodup_middle] at nodup
    simpa using (List.nodup_cons.1 nodup).1
  rw [← newList] at ordered
  have headOut : head ∉ l := (List.nodup_cons.1 (sorted_nodup ordered)).1
  have headOld : head ∉ s.chain := (List.nodup_cons.1 (sorted_nodup memory.sorted)).1
  have inNew : ∀ a, a ∈ l ↔ a ∈ s.chain ∧ a ≠ cur := by
    intro a
    by_cases isCur : a = cur
    · subst isCur
      simp only [ne_eq, not_true, and_false, iff_false]
      exact fun member => curOut (newList ▸ List.mem_cons_of_mem _ member)
    · have both : a ∈ head :: l ↔ a ∈ head :: s.chain := by
        rw [newList, split]
        simp [isCur]
      by_cases isHead : a = head
      · subst isHead
        simp [headOut, headOld]
      · simpa [isHead, isCur] using both
  have result := memory_of (s := s') (l := l) ?_ (rank_congr (fun a _ => by rw [key]) ordered)
    ?_ ?_ ?_ ?_ ?_ ?_
  · exact ⟨result.1, by rw [result.2]; exact inNew⟩
  · rw [newList]
    refine Theory.Chain.linked_remove chained (sorted_nodup sorted) ?_ fun a member ne => ?_
    · simp [edgeAt, same]
    · simp [edgeAt, same, ne]
  · intro a member
    rw [linked]
    exact memory.member a ((inNew a).1 member).1
  · intro a isLinked alive'
    rw [linked] at isLinked
    refine (inNew a).2 ⟨?_, ?_⟩
    · by_cases isPrev : a = prev
      · subst isPrev; exact memory.live a isLinked alive
      · exact memory.live a isLinked (by simpa [dead, same, isPrev] using alive')
    · rintro rfl
      rw [dead, same] at alive'
      simp only [setNext_next, apart, false_and, if_false] at alive'
      rw [dead, alive'] at isDead
      cases isDead
  · rw [fresh, linked]; exact memory.known
  · rw [fresh]; exact memory.started
  · by_cases isPrev : head = prev
    · simp [dead, same, isPrev]
    · simpa [dead, same, isPrev] using memory.headAlive
  · intro a i above
    simpa [same, Nat.ne_of_gt above] using memory.index a i above

/-- The marking exchange of `erase`. -/
theorem Memory.mark (memory : s.Memory) {cur : Addr} {i : Nat} (isLinked : s.linked cur = true)
    (same : ∀ a j, (s'.node a).next j =
      ((s.setNext cur i ((s.node cur).next i).mark).node a).next j)
    (key : s'.key = s.key) (fresh : s'.fresh = s.fresh) (linked : s'.linked = s.linked) :
    s'.Memory ∧ s'.chain = s.chain := by
  have notHead : head ≠ cur := Nat.ne_of_lt (memory.known cur isLinked).1
  refine memory_of ?_ (rank_congr (fun a _ => by rw [key]) memory.sorted) ?_ ?_ ?_ ?_ ?_ ?_
  · refine Theory.Chain.linked_congr memory.chained fun a _ => ?_
    by_cases here : a = cur ∧ 0 = i
    · obtain ⟨rfl, rfl⟩ := here
      simp [edgeAt, same]
    · simp [edgeAt, same, here]
  · rw [linked]; exact memory.member
  · intro a isLinked' alive
    rw [linked] at isLinked'
    refine memory.live a isLinked' ?_
    by_cases here : a = cur ∧ 0 = i
    · simp [dead, same, here] at alive
    · simpa [dead, same, here] using alive
  · rw [fresh, linked]; exact memory.known
  · rw [fresh]; exact memory.started
  · simpa [dead, same, notHead] using memory.headAlive
  · intro a j above
    by_cases here : a = cur ∧ j = i
    · obtain ⟨rfl, rfl⟩ := here
      simp [same, memory.index a j above, Ptr.mark]
    · simpa [same, here] using memory.index a j above

/-! ## The writes a thread can make -/

/-- A node that its creator has not linked yet. -/
structure Private (s : State T Key Value) (n : Addr) (k : Key) : Prop where
  known : head < n ∧ n < s.fresh
  new : s.linked n = false
  key : s.key n = k

/-- A node in front of the place of `k`. -/
def Before (s : State T Key Value) (k : Key) (prev : Addr) : Prop :=
  s.Public prev ∧ s.rank prev < k

/-- The end of the chain, or a node behind the place of `k`. -/
def Behind (s : State T Key Value) (k : Key) : Ptr → Prop
  | .null => True
  | .node c => s.linked c = true ∧ k < s.key c
  | _ => False

inductive Write (s : State T Key Value) : Effect Key Value → Prop
  | none : Write s .none
  | height (h) : Write s (.height h)
  | create (level key value) : Write s (.create (level + 1) key value)
  | count (n k) : s.Private n k → Write s (.count n)
  | store (n k cur) : s.Private n k → Write s (.store n 0 cur)
  | link (prev n k) : s.Private n k → s.Before k prev → s.Behind k ((s.node prev).next 0) →
      (s.node n).next 0 = (s.node prev).next 0 → Write s (.link prev n)
  | mark (cur i) : s.linked cur = true → Write s (.mark cur i ((s.node cur).next i))
  | unlink (prev cur) : s.Public prev → s.linked cur = true → s.dead cur = true →
      (s.node prev).next 0 = .node cur → Write s (.unlink prev 0 ((s.node cur).next 0).clear)
  | drop (n k) : s.linked n = true → Write s (.drop n k)
  | free (n k) : s.Private n k → Write s (.free n)

theorem Behind.alive {p : Ptr} (behind : s.Behind k p) : p.marked0 = false := by
  cases p <;> first | rfl | exact behind.elim

theorem alive_of_next {a : Addr} {p : Ptr} (next : (s.node a).next 0 = p) (clean : p.marked0 = false) :
    s.dead a = false := by
  unfold dead
  rw [next]
  exact clean

/-- How a write changes the chain. -/
def Spliced (s s' : State T Key Value) : Effect Key Value → Prop
  | .link _ n => ∀ a, a ∈ s'.chain ↔ a = n ∨ a ∈ s.chain
  | .unlink prev _ _ => ∃ cur, (s.node prev).next 0 = .node cur ∧
      ∀ a, a ∈ s'.chain ↔ a ∈ s.chain ∧ a ≠ cur
  | _ => s'.chain = s.chain

theorem apply_mark (cur : Addr) (i : Nat) (nexti : Ptr) :
    (s.apply t (.mark cur i nexti)).node = (s.setNext cur i nexti.mark).node ∧
    (s.apply t (.mark cur i nexti)).linked = s.linked ∧
    (s.apply t (.mark cur i nexti)).fresh = s.fresh := by
  simp only [apply]
  split <;> simp

theorem apply_link (prev n : Addr) :
    (s.apply t (.link prev n)).node = (s.setNext prev 0 (.node n)).node ∧
    (s.apply t (.link prev n)).linked = (fun x => if x = n then true else s.linked x) ∧
    (s.apply t (.link prev n)).fresh = s.fresh := by
  simp [apply]

theorem key_of_node {a : Addr} {i : Nat} {p : Ptr} (same : s'.node = (s.setNext a i p).node) : s'.key = s.key := by
  funext b
  rw [key, same]
  exact setNext_key s a b i p

/-- A write keeps the chain in order. -/
theorem Memory.write (memory : s.Memory) (write : s.Write e) :
    (s.apply t e).Memory ∧ s.Spliced (s.apply t e) e := by
  cases write with
  | none => exact ⟨memory, rfl⟩
  | height h =>
      exact memory.congr (fun _ _ => rfl) rfl (fun _ _ => rfl) (Nat.le_refl _) memory.index
  | create level key value =>
      have old : ∀ a < s.fresh, a ≠ s.fresh := fun a below => Nat.ne_of_lt below
      refine memory.congr ?_ rfl ?_ (Nat.le_succ _) ?_
      · rintro a (rfl | isLinked)
        · simp [apply, old head memory.started]
        · simp [apply, old a (memory.known a isLinked).2]
      · intro a below
        simp [State.key, apply, old a below]
      · intro a i above
        by_cases isNew : a = s.fresh
        · simp [apply, isNew, mkNode, Nat.ne_of_gt above]
        · simpa [apply, isNew] using memory.index a i above
  | count n k mine =>
      refine memory.congr ?_ rfl ?_ (Nat.le_refl _) ?_
      · intro a _
        by_cases same : a = n <;> simp [apply, modify, same]
      · intro a _
        by_cases same : a = n <;> simp [State.key, apply, modify, same]
      · intro a i above
        by_cases same : a = n <;> simpa [apply, modify, same] using memory.index a i above
  | store n k cur mine =>
      refine memory.congr ?_ rfl ?_ (Nat.le_refl _) ?_
      · rintro a (rfl | isLinked)
        · simp [apply, Nat.ne_of_lt mine.known.1]
        · have ne : a ≠ n := by rintro rfl; rw [mine.new] at isLinked; cases isLinked
          simp [apply, ne]
      · intro a _
        simp [apply]
      · intro a i above
        simpa [apply, Nat.ne_of_gt above] using memory.index a i above
  | link prev n k mine before behind stored =>
      obtain ⟨node, linked, fresh⟩ := apply_link (s := s) (t := t) prev n
      refine memory.link before.1 (by rw [mine.key]; exact before.2) rfl behind.alive ?_ stored
        mine.new mine.known (fun a i => by rw [node]) (key_of_node node) fresh linked
      intro c points
      rw [points] at behind
      rw [mine.key]
      exact behind.2
  | mark cur i isLinked =>
      obtain ⟨node, linked, fresh⟩ := apply_mark (s := s) (t := t) cur i ((s.node cur).next i)
      exact memory.mark isLinked (fun a j => by rw [node]) (key_of_node node) fresh linked
  | unlink prev cur shared isLinked isDead points =>
      obtain ⟨after, chain⟩ : (s.apply t (.unlink prev 0 ((s.node cur).next 0).clear)).Memory ∧ _ :=
        memory.unlink shared points isDead (fun _ _ => rfl) (key_of_node rfl) rfl rfl
      exact ⟨after, cur, points, chain⟩
  | drop n k isLinked =>
      refine memory.congr ?_ rfl ?_ (Nat.le_refl _) ?_
      · intro a _
        by_cases same : a = n <;> simp [apply, modify, same]
      · intro a _
        by_cases same : a = n <;> simp [State.key, apply, modify, same]
      · intro a i above
        by_cases same : a = n <;> simpa [apply, modify, same] using memory.index a i above
  | free n k mine =>
      exact memory.congr (fun _ _ => rfl) rfl (fun _ _ => rfl) (Nat.le_refl _) memory.index

/-- A write takes nothing back. -/
theorem Memory.extends_write (memory : s.Memory) (write : s.Write e) :
    s.Extends (s.apply t e) := by
  cases write with
  | none => exact ⟨Nat.le_refl _, fun _ _ => rfl, fun _ h => h, fun _ _ _ => rfl⟩
  | height h => exact ⟨Nat.le_refl _, fun _ _ => rfl, fun _ h => h, fun _ _ _ => rfl⟩
  | create level key value =>
      refine ⟨Nat.le_succ _, ?_, fun _ h => h, ?_⟩
      · intro a below
        simp [State.key, apply, Nat.ne_of_lt below]
      · intro a isLinked _
        simp [apply, Nat.ne_of_lt (memory.known a isLinked).2]
  | count n k mine =>
      refine ⟨Nat.le_refl _, ?_, fun _ h => h, ?_⟩
      · intro a _
        by_cases same : a = n <;> simp [State.key, apply, modify, same]
      · intro a _ _
        by_cases same : a = n <;> simp [apply, modify, same]
  | store n k cur mine =>
      refine ⟨Nat.le_refl _, fun a _ => by simp [apply], fun _ h => h, ?_⟩
      intro a isLinked _
      have ne : a ≠ n := by rintro rfl; rw [mine.new] at isLinked; cases isLinked
      simp [apply, ne]
  | link prev n k mine before behind stored =>
      obtain ⟨node, linked, fresh⟩ := apply_link (s := s) (t := t) prev n
      refine ⟨by rw [fresh], fun a _ => by rw [key_of_node node], ?_, ?_⟩
      · intro a isLinked
        simp [linked, isLinked]
      · intro a _ isDead
        have ne : a ≠ prev := by rintro rfl; rw [dead, behind.alive] at isDead; cases isDead
        simp [node, ne]
  | mark cur i isLinked =>
      obtain ⟨node, linked, fresh⟩ := apply_mark (s := s) (t := t) cur i ((s.node cur).next i)
      refine ⟨by rw [fresh], fun a _ => by rw [key_of_node node], fun _ h => by rwa [linked], ?_⟩
      intro a _ isDead
      by_cases here : a = cur ∧ 0 = i
      · obtain ⟨rfl, rfl⟩ := here
        simp [node, Ptr.mark_of_marked0 isDead]
      · simp [node, here]
  | unlink prev cur shared isLinked isDead points =>
      refine ⟨Nat.le_refl _, fun a _ => by simp [apply], fun _ h => h, ?_⟩
      intro a _ isDead'
      have ne : a ≠ prev := by
        rintro rfl
        simp [dead, points, Ptr.marked0] at isDead'
      simp [apply, ne]
  | drop n k isLinked =>
      refine ⟨Nat.le_refl _, ?_, fun _ h => h, ?_⟩
      · intro a _
        by_cases same : a = n <;> simp [State.key, apply, modify, same]
      · intro a _ _
        by_cases same : a = n <;> simp [apply, modify, same]
  | free n k mine => exact ⟨Nat.le_refl _, fun _ _ => rfl, fun _ h => h, fun _ _ _ => rfl⟩

/-! ## What a thread knows -/

/-- What the caller of `find(key)` knows across the call. -/
def SiteOk (s : State T Key Value) (f : Find Key Value) : Prop :=
  match f.site with
  | .eraseAgain cur _ => s.linked cur = true ∧ s.dead cur = true ∧ s.key cur = f.key
  | .insertAgain n _ => s.Private n f.key
  | _ => True

/-- A pointer read from level 0, without its mark. -/
def Shared (s : State T Key Value) : Ptr → Prop
  | .null => True
  | .node c => s.linked c = true
  | _ => False

theorem Shared.alive {p : Ptr} (shared : s.Shared p) : p.marked0 = false := by
  cases p <;> first | rfl | exact shared.elim

/-- Two neighbours on level 0 in front of which `find` stands. -/
structure Window (s : State T Key Value) (f : Find Key Value) (i : Nat) (prev cur : Addr) :
    Prop where
  site : s.SiteOk f
  bottom : i = 0
  before : s.Before f.key prev
  linked : s.linked cur = true

def Local (s : State T Key Value) : PC Key Value → Prop
  | .acquire (.find f) | .findHead f | .findHeight f => s.SiteOk f
  | .findCur f i prev => s.SiteOk f ∧ s.Before f.key prev ∧ (i ≠ 0 → prev = head)
  | .findNext f i prev cur => s.Window f i prev cur
  | .findPrev f i prev cur next =>
      s.Window f i prev cur ∧ (next.marked0 = false → s.Shared next) ∧
        (next.marked0 = true → (s.node cur).next 0 = next)
  | .findDead f i prev cur next | .findKey f i prev cur next =>
      s.Window f i prev cur ∧ s.Shared next
  | .findSetPrev f i prev next | .findSetCur f i prev next =>
      s.SiteOk f ∧ i = 0 ∧ s.Before f.key prev ∧ s.Shared next
  | .findNexti f i prev cur | .findDrop f i prev cur | .findClear f i prev cur
  | .findRetire f i prev cur => s.Window f i prev cur ∧ s.dead cur = true
  | .findUnlink f i prev cur nexti =>
      s.Window f i prev cur ∧ s.dead cur = true ∧ (s.node cur).next 0 = nexti
  | .findMatch f prev cur =>
      s.SiteOk f ∧ s.Before f.key prev ∧ s.Shared cur ∧ ∀ c, cur = .node c → f.key ≤ s.key c
  | .findValue cur | .firstKey cur => s.linked cur = true
  | .eraseHeight key cur => s.linked cur = true ∧ s.key cur = key
  | .eraseLoad key cur _ m | .eraseMark key cur _ _ m =>
      s.linked cur = true ∧ s.key cur = key ∧ m = false
  | .insertHazard key _ n prev cur | .insertCount key _ n prev cur
  | .insertStore key _ n prev cur => s.Private n key ∧ s.Before key prev ∧ s.Behind key cur
  | .insertLink key _ n prev cur =>
      s.Private n key ∧ s.Before key prev ∧ s.Behind key cur ∧ (s.node n).next 0 = cur
  | .insertOverage key _ n => s.linked n = true ∧ s.key n = key
  | .indexCur x i prev => s.linked x.n = true ∧ prev = head ∧ i ≠ 0
  | .indexKey .. | .indexNext .. | .indexPrev .. | .indexSetPrev .. | .indexSetCur ..
  | .indexStore .. | .indexLink .. | .indexDead .. | .fault => False
  | .insertDrop n _ | .insertRetire n => s.linked n = true
  | .itemsRead _ _ prev cur | .itemsNext _ _ prev cur => s.Public prev ∧ s.linked cur = true
  | .itemsAgain _ _ prev => s.Public prev
  | .itemsSetPrev _ _ prev next | .itemsSetCur _ _ prev next =>
      s.Shared prev ∧ s.Shared next ∧ (prev = .null → next = .null)
  | .clear _ _ (.free n) | .free n => ∃ k, s.Private n k
  | _ => True

end State

/-- The unpublished node that a write touches. -/
def Effect.owner : Effect Key Value → Option Addr
  | .count n | .store n _ _ | .link _ n | .free n => some n
  | _ => Option.none

def Find.owns (f : Find Key Value) : Option Addr :=
  match f.site with
  | .insertAgain n _ => some n
  | _ => none

/-- The call of `find(key)` that a thread is in. -/
def PC.finding : PC Key Value → Option (Find Key Value)
  | .acquire (.find f) | .findHead f | .findHeight f | .findCur f _ _ | .findNext f _ _ _
  | .findPrev f _ _ _ _ | .findDead f _ _ _ _ | .findKey f _ _ _ _ | .findSetPrev f _ _ _
  | .findSetCur f _ _ _ | .findNexti f _ _ _ | .findUnlink f _ _ _ _ | .findDrop f _ _ _
  | .findClear f _ _ _ | .findRetire f _ _ _ | .findMatch f _ _ => some f
  | _ => none

/-- The node that a thread has created and not linked yet. -/
def PC.owns : PC Key Value → Option Addr
  | .insertHazard _ _ n _ _ | .insertCount _ _ n _ _ | .insertStore _ _ n _ _
  | .insertLink _ _ n _ _ | .clear _ _ (.free n) | .free n => some n
  | .acquire (.find f) | .findHead f | .findHeight f | .findCur f _ _ | .findNext f _ _ _
  | .findPrev f _ _ _ _ | .findDead f _ _ _ _ | .findKey f _ _ _ _ | .findSetPrev f _ _ _
  | .findSetCur f _ _ _ | .findNexti f _ _ _ | .findUnlink f _ _ _ _ | .findDrop f _ _ _
  | .findClear f _ _ _ | .findRetire f _ _ _ | .findMatch f _ _ => f.owns
  | _ => none

namespace State

variable {s s' : State T Key Value} {t u : T} {e : Effect Key Value} {nx : Next Key Value}
variable {k : Key} {pc : PC Key Value}

section Keeping

variable (memory : s.Memory) (kept : s.Extends s')
include memory kept

theorem Public.extend {a : Addr} (shared : s.Public a) : s'.Public a :=
  shared.imp_right (kept.linked a)

theorem key_extend {a : Addr} (isLinked : s.linked a = true) : s'.key a = s.key a :=
  kept.key a (memory.known a isLinked).2

theorem dead_extend {a : Addr} (isLinked : s.linked a = true) (isDead : s.dead a = true) :
    s'.dead a = true := by
  rw [dead, kept.dead a isLinked isDead]
  exact isDead

theorem rank_extend {a : Addr} (shared : s.Public a) : s'.rank a = s.rank a := by
  rcases shared with rfl | isLinked
  · simp only [rank, if_true]
  · simp only [rank, key_extend memory kept isLinked]

theorem Before.extend {prev : Addr} (before : s.Before k prev) : s'.Before k prev :=
  ⟨before.1.extend memory kept, by rw [rank_extend memory kept before.1]; exact before.2⟩

theorem Shared.extend {p : Ptr} (shared : s.Shared p) : s'.Shared p := by
  cases p with
  | null => trivial
  | node c => exact kept.linked c shared
  | markedNull => exact shared.elim
  | marked c => exact shared.elim

theorem Behind.extend {p : Ptr} (behind : s.Behind k p) : s'.Behind k p := by
  cases p with
  | null => trivial
  | node c =>
      refine ⟨kept.linked c behind.1, ?_⟩
      rw [key_extend memory kept behind.1]
      exact behind.2
  | markedNull => exact behind.elim
  | marked c => exact behind.elim

omit memory in
theorem Private.extend {n : Addr} (mine : s.Private n k) (same : s'.linked n = s.linked n) :
    s'.Private n k :=
  ⟨⟨mine.known.1, Nat.lt_of_lt_of_le mine.known.2 kept.fresh⟩, same.trans mine.new,
    (kept.key n mine.known.2).trans mine.key⟩

theorem SiteOk.extend {f : Find Key Value} (site : s.SiteOk f)
    (same : ∀ n level, f.site = .insertAgain n level → s'.linked n = s.linked n) :
    s'.SiteOk f := by
  simp only [SiteOk] at site ⊢
  split at site
  · obtain ⟨isLinked, isDead, atKey⟩ := site
    exact ⟨kept.linked _ isLinked, dead_extend memory kept isLinked isDead,
      (key_extend memory kept isLinked).trans atKey⟩
  · rename_i n level atSite
    exact site.extend kept (same n level atSite)
  · trivial

theorem Window.extend {f : Find Key Value} {i : Nat} {prev cur : Addr}
    (window : s.Window f i prev cur)
    (same : ∀ n level, f.site = .insertAgain n level → s'.linked n = s.linked n) :
    s'.Window f i prev cur :=
  ⟨window.site.extend memory kept same, window.bottom, window.before.extend memory kept,
    kept.linked cur window.linked⟩

/-- What a thread knows stays true, as long as its own node is left alone. -/
theorem Local.extend (here : s.Local pc)
    (same : ∀ n, pc.owns = some n → s'.linked n = s.linked n ∧ (s'.node n).next 0 = (s.node n).next 0) :
    s'.Local pc := by
  have site : ∀ f : Find Key Value, (∀ n level, f.site = .insertAgain n level → pc.owns = some n) →
      ∀ n level, f.site = .insertAgain n level → s'.linked n = s.linked n :=
    fun f owned n level at_ => (same n (owned n level at_)).1
  cases pc with
  | acquire start =>
      cases start with
      | find f => exact SiteOk.extend memory kept here (site f fun n level at_ => by simp [PC.owns, Find.owns, at_])
      | first => trivial
      | items what => trivial
  | findHead f => exact SiteOk.extend memory kept here (site f fun n level at_ => by simp [PC.owns, Find.owns, at_])
  | findHeight f => exact SiteOk.extend memory kept here (site f fun n level at_ => by simp [PC.owns, Find.owns, at_])
  | findCur f i prev =>
      exact ⟨here.1.extend memory kept (site f fun n level at_ => by simp [PC.owns, Find.owns, at_]),
        here.2.1.extend memory kept, here.2.2⟩
  | findNext f i prev cur =>
      exact Window.extend memory kept here (site f fun n level at_ => by simp [PC.owns, Find.owns, at_])
  | findPrev f i prev cur next =>
      obtain ⟨window, shared, frozen⟩ := here
      refine ⟨window.extend memory kept (site f fun n level at_ => by simp [PC.owns, Find.owns, at_]),
        fun clean => (shared clean).extend memory kept, fun isMarked => ?_⟩
      have isDead : s.dead cur = true := by rw [dead, frozen isMarked]; exact isMarked
      exact (kept.dead cur window.linked isDead).trans (frozen isMarked)
  | findDead f i prev cur next =>
      exact ⟨here.1.extend memory kept (site f fun n level at_ => by simp [PC.owns, Find.owns, at_]),
        here.2.extend memory kept⟩
  | findKey f i prev cur next =>
      exact ⟨here.1.extend memory kept (site f fun n level at_ => by simp [PC.owns, Find.owns, at_]),
        here.2.extend memory kept⟩
  | findSetPrev f i prev next =>
      exact ⟨here.1.extend memory kept (site f fun n level at_ => by simp [PC.owns, Find.owns, at_]),
        here.2.1, here.2.2.1.extend memory kept, here.2.2.2.extend memory kept⟩
  | findSetCur f i prev next =>
      exact ⟨here.1.extend memory kept (site f fun n level at_ => by simp [PC.owns, Find.owns, at_]),
        here.2.1, here.2.2.1.extend memory kept, here.2.2.2.extend memory kept⟩
  | findNexti f i prev cur =>
      exact ⟨here.1.extend memory kept (site f fun n level at_ => by simp [PC.owns, Find.owns, at_]),
        dead_extend memory kept here.1.linked here.2⟩
  | findUnlink f i prev cur nexti =>
      exact ⟨here.1.extend memory kept (site f fun n level at_ => by simp [PC.owns, Find.owns, at_]),
        dead_extend memory kept here.1.linked here.2.1,
        (kept.dead cur here.1.linked here.2.1).trans here.2.2⟩
  | findDrop f i prev cur =>
      exact ⟨here.1.extend memory kept (site f fun n level at_ => by simp [PC.owns, Find.owns, at_]),
        dead_extend memory kept here.1.linked here.2⟩
  | findClear f i prev cur =>
      exact ⟨here.1.extend memory kept (site f fun n level at_ => by simp [PC.owns, Find.owns, at_]),
        dead_extend memory kept here.1.linked here.2⟩
  | findRetire f i prev cur =>
      exact ⟨here.1.extend memory kept (site f fun n level at_ => by simp [PC.owns, Find.owns, at_]),
        dead_extend memory kept here.1.linked here.2⟩
  | findMatch f prev cur =>
      obtain ⟨atSite, before, shared, reached⟩ := here
      refine ⟨atSite.extend memory kept (site f fun n level at_ => by simp [PC.owns, Find.owns, at_]),
        before.extend memory kept, shared.extend memory kept, ?_⟩
      rintro c rfl
      rw [key_extend memory kept shared]
      exact reached c rfl
  | findValue cur => exact kept.linked cur here
  | firstKey cur => exact kept.linked cur here
  | eraseHeight key cur =>
      exact ⟨kept.linked cur here.1, (key_extend memory kept here.1).trans here.2⟩
  | eraseLoad key cur i m =>
      exact ⟨kept.linked cur here.1, (key_extend memory kept here.1).trans here.2.1, here.2.2⟩
  | eraseMark key cur i nexti m =>
      exact ⟨kept.linked cur here.1, (key_extend memory kept here.1).trans here.2.1, here.2.2⟩
  | insertHazard key level n prev cur =>
      exact ⟨here.1.extend kept (same n rfl).1, here.2.1.extend memory kept,
        here.2.2.extend memory kept⟩
  | insertCount key level n prev cur =>
      exact ⟨here.1.extend kept (same n rfl).1, here.2.1.extend memory kept,
        here.2.2.extend memory kept⟩
  | insertStore key level n prev cur =>
      exact ⟨here.1.extend kept (same n rfl).1, here.2.1.extend memory kept,
        here.2.2.extend memory kept⟩
  | insertLink key level n prev cur =>
      exact ⟨here.1.extend kept (same n rfl).1, here.2.1.extend memory kept,
        here.2.2.1.extend memory kept, (same n rfl).2.trans here.2.2.2⟩
  | insertOverage key level n =>
      exact ⟨kept.linked n here.1, (key_extend memory kept here.1).trans here.2⟩
  | indexCur x i prev => exact ⟨kept.linked x.n here.1, here.2⟩
  | insertDrop n overage => exact kept.linked n here
  | insertRetire n => exact kept.linked n here
  | itemsRead what ret prev cur => exact ⟨here.1.extend memory kept, kept.linked cur here.2⟩
  | itemsNext what ret prev cur => exact ⟨here.1.extend memory kept, kept.linked cur here.2⟩
  | itemsAgain what ret prev => exact Public.extend memory kept here
  | itemsSetPrev what ret prev next =>
      exact ⟨here.1.extend memory kept, here.2.1.extend memory kept, here.2.2⟩
  | itemsSetCur what ret prev next =>
      exact ⟨here.1.extend memory kept, here.2.1.extend memory kept, here.2.2⟩
  | clear first last leave =>
      cases leave with
      | ret r => trivial
      | free n =>
          obtain ⟨k, mine⟩ := here
          exact ⟨k, mine.extend kept (same n rfl).1⟩
  | free n =>
      obtain ⟨k, mine⟩ := here
      exact ⟨k, mine.extend kept (same n rfl).1⟩
  | idle | insertLevel | firstCur | itemsCur | exiting => trivial
  | indexKey | indexNext | indexPrev | indexSetPrev | indexSetCur | indexStore | indexLink
  | indexDead | fault => exact here.elim

end Keeping

/-! ## A step of a thread -/

theorem Behind.of_shared {p : Ptr} (shared : s.Shared p)
    (above : ∀ c, p = .node c → k < s.key c) : s.Behind k p := by
  cases p with
  | null => trivial
  | node c => exact ⟨shared, above c rfl⟩
  | markedNull => exact shared.elim
  | marked c => exact shared.elim

/-- What a shared node points to, unless the node is marked. -/
theorem Memory.shared_next (memory : s.Memory) {a : Addr} (shared : s.Public a)
    (alive : ((s.node a).next 0).marked0 = false) : s.Shared ((s.node a).next 0) := by
  cases points : (s.node a).next 0 with
  | null => trivial
  | node b => exact memory.member b (memory.points shared points)
  | markedNull => rw [points] at alive; cases alive
  | marked b => rw [points] at alive; cases alive

/-- Every access of a thread is a write that keeps the chain. -/
theorem Local.write (here : s.Local pc) (access : s.Access t pc e nx) : s.Write e := by
  cases access with
  | unlinked f i prev cur nexti points =>
      obtain ⟨window, isDead, frozen⟩ := here
      obtain rfl := window.bottom
      subst frozen
      exact .unlink prev cur window.before.1 window.linked isDead points
  | dropLast f i prev cur last => exact .drop cur 1 here.1.linked
  | drop f i prev cur more => exact .drop cur 1 here.1.linked
  | matchNull f prev =>
      simp only [found]
      split <;> first | exact .none | exact .create _ _ _
  | matchNode f prev cur =>
      simp only [found]
      split <;> first | exact .none | (split <;> first | exact .none | exact .create _ _ _)
  | marked key cur i m => exact .mark cur i here.1
  | grown key value level low => exact .height _
  | counted key level n prev cur => exact .count n key here.1
  | stored key level n prev cur => exact .store n key cur here.1
  | linked key level n prev => exact .link prev n key here.1 here.2.1 here.2.2.1 here.2.2.2
  | overageLast n overage last => exact .drop n overage here
  | overageDropped n overage more => exact .drop n overage here
  | freed n => obtain ⟨k, mine⟩ := here; exact .free n k mine
  | indexStored => exact here.elim
  | indexed => exact here.elim
  | _ => exact .none

theorem local_enter {f : Find Key Value} (site : s'.SiteOk f) : s'.Local (s.enter t (.find f)) := by
  simp only [enter]
  split <;> exact site

theorem before_head : s.Before k head :=
  ⟨.inl rfl, by rw [rank_head]; exact WithBot.bot_lt_coe k⟩

theorem Memory.before_linked (memory : s.Memory) {a : Addr} (isLinked : s.linked a = true)
    (below : s.key a < k) : s.Before k a :=
  ⟨.inr isLinked, by rw [memory.rank_linked isLinked]; exact WithBot.coe_lt_coe.2 below⟩

theorem local_index {x : Index Key} {i : Nat} (isLinked : s.linked x.n = true) :
    s.Local (indexLevel x head i : PC Key Value) := by
  cases i with
  | zero =>
      simp only [indexLevel]
      split
      · exact isLinked
      · trivial
  | succ i => exact ⟨isLinked, rfl, Nat.succ_ne_zero i⟩

/-- The top of the loop of `find` on level 0. -/
theorem local_findLoop {f : Find Key Value} {prev : Addr} {cur : Ptr} (site : s.SiteOk f)
    (before : s.Before f.key prev) (shared : s.Shared cur) : s.Local (findLoop f 0 prev cur) := by
  cases cur with
  | null => exact ⟨site, before, trivial, fun c points => by cases points⟩
  | node c => exact ⟨site, rfl, before, shared⟩
  | markedNull => exact shared.elim
  | marked c => exact shared.elim

theorem local_itemsLoop {what : Extract} {ret : List (Item Key Value)} {prev cur : Ptr}
    (first : prev = .node head ∨ s.Shared prev ∧ (prev = .null → cur = .null))
    (second : s.Shared cur) : s.Local (itemsLoop what ret prev cur) := by
  cases cur with
  | null => trivial
  | node c =>
      rcases first with rfl | ⟨shared, last⟩
      · exact ⟨.inl rfl, second⟩
      · cases prev with
        | null => cases last rfl
        | node p => exact ⟨.inr shared, second⟩
        | markedNull => exact shared.elim
        | marked p => exact shared.elim
  | markedNull => exact second.elim
  | marked c => exact second.elim

/-- What the callers of `find` start from. -/
theorem local_found {f : Find Key Value} {prev : Addr} {cur : Ptr} {hit : Bool}
    (memory : s.Memory) (site : s.SiteOk f) (before : s.Before f.key prev) (shared : s.Shared cur)
    (hits : hit = true → ∃ c, cur = .node c ∧ s.key c = f.key)
    (misses : hit = false → ∀ c, cur = .node c → f.key < s.key c) :
    (s.apply t (s.found f prev cur hit).1).Local (s.found f prev cur hit).2.pc := by
  have behind : hit = false → s.Behind f.key cur :=
    fun missed => .of_shared shared (misses missed)
  cases atSite : f.site with
  | exists_ => simp only [found, atSite]; trivial
  | find =>
      cases hit with
      | true =>
          obtain ⟨c, rfl, -⟩ := hits rfl
          simp only [found, atSite]
          exact shared
      | false => simp only [found, atSite]; trivial
  | erase =>
      cases hit with
      | true =>
          obtain ⟨c, rfl, atKey⟩ := hits rfl
          simp only [found, atSite]
          exact ⟨shared, atKey⟩
      | false => simp only [found, atSite]; trivial
  | eraseAgain c m => simp only [found, atSite]; trivial
  | insert value level =>
      cases hit with
      | true => simp only [found, atSite, if_true]; trivial
      | false =>
          have kept := memory.extends_write (t := t) (.create level f.key value)
          simp only [found, atSite, Bool.false_eq_true, if_false]
          refine ⟨⟨⟨memory.started, Nat.lt_succ_self _⟩, ?_, ?_⟩, before.extend memory kept,
            (behind rfl).extend memory kept⟩
          · -- nothing at or above `fresh` has been linked
            cases isLinked : s.linked s.fresh with
            | false => exact isLinked
            | true => exact absurd (memory.known _ isLinked).2 (Nat.lt_irrefl _)
          · simp [key, apply, mkNode]
  | insertAgain n level =>
      simp only [SiteOk, atSite] at site
      cases hit with
      | true => simp only [found, atSite, if_true]; exact ⟨_, site⟩
      | false =>
          simp only [found, atSite, Bool.false_eq_true, if_false]
          exact ⟨site, before, behind rfl⟩

/-- A thread knows at its next point what it has to know there. -/
theorem Local.access (here : s.Local pc) (access : s.Access t pc e nx) (memory : s.Memory)
    (tall : ∀ a, 0 < (s.node a).height) : (s.apply t e).Local nx.pc := by
  have kept := memory.extends_write (t := t) (here.write access)
  cases access with
  | acquired start =>
      cases start with
      | find f => exact here
      | first => trivial
      | items what => trivial
  | headSet f => exact here
  | height f => exact ⟨here, before_head, fun _ => rfl⟩
  | curMarked f i prev isMarked => exact here.1
  | curLoaded f i prev clean =>
      obtain ⟨site, before, onHead⟩ := here
      cases i with
      | zero => exact local_findLoop site before (memory.shared_next before.1 clean)
      | succ i =>
          obtain rfl := onHead (Nat.succ_ne_zero i)
          simp only [memory.index head (i + 1) (Nat.succ_pos i), findLoop, findDown,
            Nat.succ_ne_zero, if_false, Nat.add_sub_cancel]
          exact ⟨site, before, fun _ => rfl⟩
  | nextFailed f i prev cur => exact here.site
  | nextLoaded f i prev cur =>
      obtain rfl := here.bottom
      exact ⟨here, memory.shared_next (.inr here.linked), fun _ => rfl⟩
  | prevChanged f i prev cur next => exact here.1.site
  | prevMarked f i prev cur next points isMarked =>
      obtain ⟨window, shared, frozen⟩ := here
      obtain rfl := window.bottom
      refine ⟨window, ?_⟩
      show s.dead cur = true
      rw [dead, frozen isMarked]
      exact isMarked
  | prevSame f i prev cur next points clean =>
      obtain ⟨window, shared, -⟩ := here
      obtain rfl := window.bottom
      exact ⟨window, shared clean⟩
  | dead f i prev cur next isDead => exact ⟨here.1, isDead⟩
  | notDead f i prev cur next alive => exact here
  | keyReached f i prev cur next reached =>
      obtain ⟨window, -⟩ := here
      obtain rfl := window.bottom
      refine ⟨window.site, window.before, window.linked, ?_⟩
      rintro c ⟨⟩
      exact reached
  | keyBelow f i prev cur next below =>
      obtain ⟨window, shared⟩ := here
      exact ⟨window.site, window.bottom, memory.before_linked window.linked below, shared⟩
  | prevSet f i prev next => exact here
  | curSet f i prev cur =>
      obtain ⟨site, rfl, before, shared⟩ := here
      exact local_findLoop site before shared
  | nexti f i prev cur =>
      obtain ⟨window, isDead⟩ := here
      obtain rfl := window.bottom
      exact ⟨window, isDead, rfl⟩
  | unlinked f i prev cur nexti points =>
      obtain ⟨window, isDead, -⟩ := here
      exact ⟨window.extend memory kept fun _ _ _ => rfl, dead_extend memory kept window.linked isDead⟩
  | unlinkFailed f i prev cur nexti changed => exact here.1.site
  | dropLast f i prev cur last =>
      exact ⟨here.1.extend memory kept fun _ _ _ => rfl, dead_extend memory kept here.1.linked here.2⟩
  | drop f i prev cur more =>
      have window := here.1.extend memory kept fun _ _ _ => rfl
      obtain rfl := window.bottom
      exact ⟨window.site, window.before, trivial, fun c points => by cases points⟩
  | curCleared f i prev cur => exact here
  | retired f i prev cur =>
      obtain ⟨window, -⟩ := here
      obtain rfl := window.bottom
      exact ⟨window.site, window.before, trivial, fun c points => by cases points⟩
  | matchNull f prev =>
      obtain ⟨site, before, shared, -⟩ := here
      exact local_found memory site before shared (fun hit => by cases hit)
        (fun _ c points => by cases points)
  | matchNode f prev cur =>
      obtain ⟨site, before, shared, reached⟩ := here
      refine local_found memory site before shared ?_ ?_
      · intro hit
        exact ⟨cur, rfl, of_decide_eq_true hit⟩
      · rintro missed c ⟨⟩
        exact lt_of_le_of_ne (reached cur rfl) (Ne.symm (of_decide_eq_false missed))
  | matchFault f prev cur tagged =>
      rcases tagged with rfl | ⟨a, rfl⟩
      · exact here.2.2.1
      · exact here.2.2.1
  | valueRead cur => trivial
  | eraseFlat key cur flat => exact absurd (tall cur) (by rw [flat]; exact Nat.lt_irrefl 0)
  | eraseTop key cur i top => exact ⟨here.1, here.2, rfl⟩
  | eraseLoaded key cur i m => exact here
  | marked key cur i m =>
      obtain ⟨isLinked, atKey, rfl⟩ := here
      obtain ⟨node, -, -⟩ := apply_mark (s := s) (t := t) cur i ((s.node cur).next i)
      have isLinked' := kept.linked cur isLinked
      have atKey' := (key_extend memory kept isLinked).trans atKey
      by_cases bottom : i = 0
      · subst bottom
        simp only [eraseDown, if_true, Next.pc_goto]
        refine local_enter ⟨isLinked', ?_, atKey'⟩
        rw [State.dead, node]
        simp
      · simp only [eraseDown, bottom, if_false, false_and, Next.pc_goto]
        exact ⟨isLinked', atKey', rfl⟩
  | markFailed key cur i nexti m => exact here
  | grown key value level low => exact local_enter trivial
  | levelled key value level high => exact local_enter trivial
  | newGuarded key level n prev cur => exact here
  | counted key level n prev cur =>
      exact ⟨here.1.extend kept rfl, here.2.1.extend memory kept, here.2.2.extend memory kept⟩
  | stored key level n prev cur =>
      exact ⟨here.1.extend kept rfl, here.2.1.extend memory kept, here.2.2.extend memory kept,
        by simp [apply]⟩
  | linked key level n prev =>
      obtain ⟨node, linked, -⟩ := apply_link (s := s) (t := t) prev n
      refine ⟨by rw [linked]; simp, ?_⟩
      rw [key_of_node node]
      exact here.1.key
  | linkFailed key level n prev cur => exact local_enter here.1
  | overage key level n => exact local_index here.1
  | indexMarked x i prev isMarked => exact local_index (i := 0) here.1
  | indexLoaded x i prev clean =>
      obtain ⟨-, rfl, above⟩ := here
      rw [memory.index head i (Nat.pos_of_ne_zero above)] at clean
      cases clean
  | overageLast n overage last => exact kept.linked n here
  | overageDropped n overage more => trivial
  | newRetired n => trivial
  | firstNull points => trivial
  | firstNode cur points => exact memory.member cur (memory.points (.inl rfl) points)
  | firstAgain isMarked => trivial
  | firstRead cur => trivial
  | itemsLoaded what ret =>
      exact local_itemsLoop (.inl rfl) (memory.shared_next (.inl rfl) memory.headAlive)
  | itemRead what ret prev cur => exact here
  | itemsNextLoaded what ret prev cur =>
      simp only [itemsNextOf]
      split
      · exact here.1
      · rename_i clean
        refine ⟨here.2, memory.shared_next (.inr here.2) (by simpa using clean), ?_⟩
        rintro ⟨⟩
  | itemsAgainNull what ret prev points => exact ⟨trivial, trivial, fun _ => rfl⟩
  | itemsAgainNode what ret prev cur points => exact ⟨here, memory.member cur (memory.points here points)⟩
  | itemsRestart what ret prev isMarked => trivial
  | itemsPrevSet what ret prev next => exact here
  | itemsCurSet what ret prev cur => exact local_itemsLoop (.inr ⟨here.1, here.2.2⟩) here.2.1
  | clearedLast k leave =>
      cases leave with
      | ret r => trivial
      | free n => exact here
  | cleared k last leave more =>
      cases leave with
      | ret r => trivial
      | free n => exact here
  | freed n => trivial
  | exited => trivial
  | _ => exact here.elim

theorem finding_findDown {f : Find Key Value} {i : Nat} {prev : Addr} {cur : Ptr} :
    (findDown f i prev cur).finding = some f := by
  simp only [findDown]
  split <;> rfl

theorem finding_findLoop {f : Find Key Value} {i : Nat} {prev : Addr} {cur : Ptr}
    (noFault : s.Local (findLoop f i prev cur)) : (findLoop f i prev cur).finding = some f := by
  cases cur with
  | null | markedNull => exact finding_findDown
  | node c => rfl
  | marked c => exact noFault.elim

theorem finding_enter {f : Find Key Value} : (s.enter t (.find f)).finding = some f := by
  simp only [enter]
  split <;> rfl

/-- `find(key)` goes on until it returns. -/
theorem Local.access_finding {f : Find Key Value} (here : s.Local pc)
    (access : s.Access t pc e nx) (memory : s.Memory) (tall : ∀ a, 0 < (s.node a).height)
    (finding : pc.finding = some f) :
    nx.pc.finding = some f ∨ ∃ prev cur, pc = .findMatch f prev cur := by
  have next := here.access access memory tall
  cases access with
  | acquired start =>
      cases start with
      | find f => exact .inl finding
      | first => cases finding
      | items what => cases finding
  | curLoaded f i prev clean => cases finding; exact .inl (finding_findLoop next)
  | curSet f i prev cur => cases finding; exact .inl (finding_findLoop next)
  | keyReached | drop | retired => cases finding; exact .inl finding_findDown
  | matchNull | matchNode | matchFault => cases finding; exact .inr ⟨_, _, rfl⟩
  | _ => first | exact .inl finding | cases finding

/-! ## Nodes that are not published yet -/

theorem Local.owned {n : Addr} (here : s.Local pc) (owned : pc.owns = some n) :
    ∃ k, s.Private n k := by
  have ofSite : ∀ f : Find Key Value, s.SiteOk f → f.owns = some n → s.Private n f.key := by
    intro f site atSite
    simp only [Find.owns] at atSite
    split at atSite
    · rename_i m level at_
      cases atSite
      simpa only [SiteOk, at_] using site
    · cases atSite
  cases pc with
  | acquire start =>
      cases start with
      | find f => exact ⟨_, ofSite f here owned⟩
      | first => cases owned
      | items what => cases owned
  | findHead f | findHeight f => exact ⟨_, ofSite f here owned⟩
  | findNext f => exact ⟨_, ofSite f here.site owned⟩
  | findCur f | findSetPrev f | findSetCur f | findMatch f => exact ⟨_, ofSite f here.1 owned⟩
  | findPrev f | findDead f | findKey f | findNexti f | findUnlink f | findDrop f | findClear f
  | findRetire f => exact ⟨_, ofSite f here.1.site owned⟩
  | insertHazard | insertCount | insertStore | insertLink => cases owned; exact ⟨_, here.1⟩
  | clear first last leave =>
      cases leave with
      | ret r => cases owned
      | free n => cases owned; exact here
  | free n => cases owned; exact here
  | _ => cases owned

theorem owner_found {f : Find Key Value} {prev : Addr} {cur : Ptr} {hit : Bool} :
    (s.found f prev cur hit).1.owner = none := by
  simp only [found]
  repeat' split
  all_goals rfl

theorem Local.owner {n : Addr} (here : s.Local pc) (access : s.Access t pc e nx)
    (owner : e.owner = some n) : pc.owns = some n := by
  cases access with
  | counted | stored | linked | freed => exact owner
  | indexStored => exact here.elim
  | matchNull | matchNode => cases owner_found.symm.trans owner
  | _ => cases owner

theorem Write.untouched {n : Addr} (write : s.Write e) (mine : s.Private n k)
    (notOwner : e.owner ≠ some n) :
    (s.apply t e).node n = s.node n ∧ (s.apply t e).linked n = s.linked n := by
  have apart : ∀ a, s.linked a = true → n ≠ a := by
    rintro a isLinked rfl
    rw [mine.new] at isLinked
    cases isLinked
  have shared : ∀ a, s.Public a → n ≠ a := by
    rintro a (rfl | isLinked)
    · exact Nat.ne_of_gt mine.known.1
    · exact apart a isLinked
  cases write with
  | none | height h | free m k' mine' => exact ⟨rfl, rfl⟩
  | create level key value => exact ⟨if_neg (Nat.ne_of_lt mine.known.2), rfl⟩
  | count m k' mine' => exact ⟨if_neg fun same => notOwner (congrArg some same.symm), rfl⟩
  | store m k' cur mine' => exact ⟨if_neg fun same => notOwner (congrArg some same.symm), rfl⟩
  | link prev m k' mine' before behind stored =>
      obtain ⟨node, linked, -⟩ := apply_link (s := s) (t := t) prev m
      rw [node, linked]
      exact ⟨if_neg (shared prev before.1), if_neg fun same => notOwner (congrArg some same.symm)⟩
  | mark cur i isLinked =>
      obtain ⟨node, linked, -⟩ := apply_mark (s := s) (t := t) cur i ((s.node cur).next i)
      rw [node, linked]
      exact ⟨if_neg (apart cur isLinked), rfl⟩
  | unlink prev cur isShared isLinked isDead points => exact ⟨if_neg (shared prev isShared), rfl⟩
  | drop m k' isLinked => exact ⟨if_neg (apart m isLinked), rfl⟩

theorem owns_findDown {f : Find Key Value} {i : Nat} {prev : Addr} {cur : Ptr} :
    (findDown f i prev cur).owns = f.owns := by
  simp only [findDown]
  split <;> rfl

theorem owns_findLoop {f : Find Key Value} {i : Nat} {prev n : Addr} {cur : Ptr}
    (owned : (findLoop f i prev cur).owns = some n) : f.owns = some n := by
  cases cur with
  | null | markedNull => exact owns_findDown.symm.trans owned
  | node c => exact owned
  | marked c => cases owned

theorem owns_enter {f : Find Key Value} : (s.enter t (.find f)).owns = f.owns := by
  simp only [enter]
  split <;> rfl

theorem owns_eraseDown {key : Key} {cur : Addr} {i : Nat} {m : Bool} :
    (s.eraseDown t key cur i m).owns = none := by
  simp only [eraseDown]
  split
  · rw [owns_enter]; rfl
  · rfl

theorem owns_indexLevel {x : Index Key} {i : Nat} {prev : Addr} :
    (indexLevel x prev i : PC Key Value).owns = none := by
  cases i with
  | zero => simp only [indexLevel]; split <;> rfl
  | succ i => rfl

theorem owns_indexWhile {x : Index Key} {i : Nat} {prev : Addr} {cur : Ptr} :
    (indexWhile x i prev cur : PC Key Value).owns = none := by
  cases cur with
  | null => simp only [indexWhile, indexHere]; split <;> rfl
  | _ => rfl

theorem owns_itemsLoop {what : Extract} {ret : List (Item Key Value)} {prev cur : Ptr} :
    (itemsLoop what ret prev cur).owns = none := by
  cases cur with
  | node c => cases prev <;> rfl
  | _ => rfl

theorem owns_found {f : Find Key Value} {prev n : Addr} {cur : Ptr} {hit : Bool}
    (owned : (s.found f prev cur hit).2.pc.owns = some n) : f.owns = some n ∨ n = s.fresh := by
  simp only [found] at owned
  split at owned
  case h_1 | h_4 => cases owned
  case h_2 | h_3 => split at owned <;> cases owned
  case h_5 =>
      split at owned
      · cases owned
      · cases owned; exact .inr rfl
  case h_6 m level atSite =>
      refine .inl ?_
      simp only [Find.owns, atSite]
      split at owned <;> exact owned

/-- A thread gets a node of its own by creating it. -/
theorem Local.access_owns {n : Addr} (here : s.Local pc) (access : s.Access t pc e nx)
    (owned : nx.pc.owns = some n) : pc.owns = some n ∨ n = s.fresh := by
  cases access with
  | acquired start =>
      cases start with
      | find f => exact .inl owned
      | first => cases owned
      | items what => cases owned
  | curLoaded f i prev clean => exact .inl (owns_findLoop owned)
  | curSet f i prev cur => exact .inl (owns_findLoop owned)
  | keyReached | drop | retired => exact .inl (owns_findDown.symm.trans owned)
  | matchNull | matchNode => exact owns_found owned
  | matchFault => cases owned
  | valueRead => cases owned
  | eraseFlat | marked => cases owns_eraseDown.symm.trans owned
  | eraseTop | eraseLoaded | markFailed => cases owned
  | grown | levelled => cases owns_enter.symm.trans owned
  | linkFailed => exact .inl (owns_enter.symm.trans owned)
  | linked => cases owned
  | overage => cases owns_indexLevel.symm.trans owned
  | indexMarked => rw [Next.pc_goto, indexExit, owns_indexLevel] at owned; cases owned
  | indexLoaded => cases owns_indexWhile.symm.trans owned
  | itemsLoaded | itemsCurSet => rw [Next.pc_goto, owns_itemsLoop] at owned; cases owned
  | itemsNextLoaded =>
      simp only [itemsNextOf] at owned
      split at owned <;> cases owned
  | overageLast | overageDropped | newRetired | firstNull | firstNode | firstAgain | firstRead
  | itemRead | itemsAgainNull | itemsAgainNode | itemsRestart | itemsPrevSet | freed | exited =>
      cases owned
  | clearedLast k leave =>
      cases leave with
      | ret r => cases owned
      | free n => exact .inl owned
  | cleared k last leave more =>
      cases leave with
      | ret r => cases owned
      | free n => exact .inl owned
  | indexBelow | indexReached | indexNextMarked | indexNextLoaded | indexPrevChanged
  | indexPrevSame | indexPrevSet | indexCurSet | indexStored | indexed | indexFailed | indexDead
  | indexAlive => exact here.elim
  | _ => exact .inl owned

structure Level0 (s : State T Key Value) : Prop where
  synced : s.Synced
  memory : s.Memory
  tall : ∀ a, 0 < (s.node a).height
  mine : ∀ t u n, (s.pc t).owns = some n → (s.pc u).owns = some n → t = u
  here : ∀ t, s.Local (s.pc t)

/-! ## Every reachable state -/

/-- The nodes are the same, whatever else has changed. -/
structure SameNodes (s s' : State T Key Value) : Prop where
  node : s'.node = s.node
  linked : s'.linked = s.linked
  fresh : s'.fresh = s.fresh

theorem SameNodes.extends (same : s.SameNodes s') : s.Extends s' :=
  ⟨by rw [same.fresh], fun a _ => by rw [key, key, same.node], fun a h => by rwa [same.linked],
    fun a _ _ => by rw [same.node]⟩

theorem Extends.same {q : State T Key Value} (kept : s.Extends q) (same : q.SameNodes s') :
    s.Extends s' :=
  ⟨by rw [same.fresh]; exact kept.fresh,
    fun a known => by rw [State.key, same.node]; exact kept.key a known,
    fun a isLinked => by rw [same.linked]; exact kept.linked a isLinked,
    fun a isLinked isDead => by rw [same.node]; exact kept.dead a isLinked isDead⟩

theorem SameNodes.chain (same : s.SameNodes s') : s'.chain = s.chain := by
  have edge : s'.edgeAt 0 = s.edgeAt 0 := by
    funext a
    rw [edgeAt, edgeAt, same.node]
  rw [State.chain, State.chain, chainAt, chainAt, edge, same.fresh]

theorem SameNodes.key (same : s.SameNodes s') : s'.key = s.key := by
  unfold State.key
  rw [same.node]

theorem SameNodes.dead (same : s.SameNodes s') : s'.dead = s.dead := by
  unfold State.dead
  rw [same.node]

theorem SameNodes.memory (same : s.SameNodes s') (memory : s.Memory) :
    s'.Memory ∧ s'.chain = s.chain :=
  memory.congr (fun a _ => by rw [same.node]) same.linked same.extends.key same.extends.fresh
    (by rw [same.node]; exact memory.index)

theorem SameNodes.locally (same : s.SameNodes s') (memory : s.Memory) (here : s.Local pc) :
    s'.Local pc :=
  here.extend memory same.extends fun n _ => by rw [same.node, same.linked]; exact ⟨rfl, rfl⟩

theorem sameNodes_after (sys : Hazard.Sys T Ptr (Addr × Nat)) (e : Effect Key Value)
    (nx : Next Key Value) :
    (s.apply t e).SameNodes (({ s with sys := sys }.apply t e).after t nx) := by
  have same := apply_with_sys (s := s) (t := t) sys e
  exact ⟨by rw [after_node, same], by rw [after_linked, same], by rw [after_fresh, same]⟩

theorem tall_apply (tall : ∀ a, 0 < (s.node a).height) (write : s.Write e) (a : Addr) :
    0 < ((s.apply t e).node a).height := by
  have setNext_height : ∀ b i p, ((s.setNext b i p).node a).height = (s.node a).height := by
    intro b i p
    by_cases same : a = b <;> simp [setNext, modify, same]
  cases write with
  | none | height h | free n k mine => exact tall a
  | create level key value =>
      by_cases isNew : a = s.fresh
      · simp [apply, isNew, mkNode]
      · simpa [apply, isNew] using tall a
  | count n k mine | drop n k isLinked =>
      by_cases same : a = n
      · subst same; simpa [apply, modify] using tall a
      · simpa [apply, modify, same] using tall a
  | store n k cur mine | unlink prev cur shared isLinked isDead points =>
      simpa [apply, setNext_height] using tall a
  | link prev n k mine before behind stored =>
      rw [(apply_link (s := s) (t := t) prev n).1, setNext_height]
      exact tall a
  | mark cur i isLinked =>
      rw [(apply_mark (s := s) (t := t) cur i ((s.node cur).next i)).1, setNext_height]
      exact tall a

theorem Level0.access {sys : Hazard.Sys T Ptr (Addr × Nat)} (level0 : s.Level0)
    (access : s.Access t (s.pc t) e nx)
    (synced : (({ s with sys := sys }.apply t e).after t nx).Synced) :
    (({ s with sys := sys }.apply t e).after t nx).Level0 := by
  have write := (level0.here t).write access
  have kept := level0.memory.extends_write (t := t) write
  have memory := (level0.memory.write (t := t) write).1
  have same := sameNodes_after (s := s) (t := t) sys e nx
  have pcSelf : (({ s with sys := sys }.apply t e).after t nx).pc t = nx.pc := after_pc_self
  have pcOther : ∀ u, u ≠ t → (({ s with sys := sys }.apply t e).after t nx).pc u = s.pc u := by
    intro u other
    rw [after_pc_other other, apply_pc]
  -- what `t` owns now, nobody else owns
  have fresh : ∀ u n, u ≠ t → nx.pc.owns = some n → (s.pc u).owns ≠ some n := by
    intro u n other owned owned'
    rcases (level0.here t).access_owns access owned with before | rfl
    · exact other (level0.mine u t n owned' before)
    · obtain ⟨k, mine⟩ := (level0.here u).owned owned'
      exact Nat.lt_irrefl _ mine.known.2
  refine ⟨synced, (same.memory memory).1, ?_, ?_, ?_⟩
  · intro a
    rw [same.node]
    exact tall_apply level0.tall write a
  · intro u v n ownedU ownedV
    by_cases isU : u = t
    · by_cases isV : v = t
      · exact isU.trans isV.symm
      · rw [isU, pcSelf] at ownedU
        rw [pcOther v isV] at ownedV
        exact absurd ownedV (fresh v n isV ownedU)
    · by_cases isV : v = t
      · rw [isV, pcSelf] at ownedV
        rw [pcOther u isU] at ownedU
        exact absurd ownedU (fresh u n isU ownedV)
      · rw [pcOther u isU] at ownedU
        rw [pcOther v isV] at ownedV
        exact level0.mine u v n ownedU ownedV
  · intro u
    by_cases isT : u = t
    · rw [isT, pcSelf]
      exact same.locally memory ((level0.here t).access access level0.memory level0.tall)
    · rw [pcOther u isT]
      refine same.locally memory ((level0.here u).extend level0.memory kept fun n owned => ?_)
      obtain ⟨k, mine⟩ := (level0.here u).owned owned
      have others : e.owner ≠ some n := fun owner =>
        isT (level0.mine u t n owned ((level0.here t).owner access owner))
      have untouched := write.untouched (t := t) mine others
      exact ⟨untouched.2, by rw [untouched.1]⟩

/-- Moving one thread without touching a node. -/
theorem Level0.move (level0 : s.Level0) (same : s.SameNodes s') (synced : s'.Synced)
    (here : ∀ u, s'.pc u ≠ s.pc u → s.Local (s'.pc u) ∧ (s'.pc u).owns = none) : s'.Level0 := by
  have owns : ∀ u n, (s'.pc u).owns = some n → (s.pc u).owns = some n := by
    intro u n owned
    by_cases moved : s'.pc u = s.pc u
    · rwa [moved] at owned
    · rw [(here u moved).2] at owned; cases owned
  refine ⟨synced, (same.memory level0.memory).1, by rw [same.node]; exact level0.tall, ?_, ?_⟩
  · intro u v n ownedU ownedV
    exact level0.mine u v n (owns u n ownedU) (owns v n ownedV)
  · intro u
    refine same.locally level0.memory ?_
    by_cases moved : s'.pc u = s.pc u
    · rw [moved]; exact level0.here u
    · exact (here u moved).1

theorem Level0.step (level0 : s.Level0) (taken : s.step t = some s') : s'.Level0 := by
  have synced := level0.synced.step taken
  rcases step_map level0.synced taken with ⟨sys, -, rfl⟩ | ⟨sys, e, nx, access, rfl⟩
  · exact level0.move ⟨rfl, rfl, rfl⟩ synced fun u moved => absurd rfl moved
  · exact level0.access access synced

theorem local_begin (op : Op Key Value) :
    s.Local (s.begin t op) ∧ (s.begin t op).owns = none := by
  cases op with
  | exists_ key | find key | erase key => exact ⟨local_enter trivial, owns_enter⟩
  | insert key value level => exact ⟨trivial, rfl⟩
  | firstKey | extract what => simp only [begin, enter]; split <;> exact ⟨trivial, rfl⟩

theorem goto_pc_ne {pc : PC Key Value} (moved : (s.goto t pc).pc u ≠ s.pc u) :
    (s.goto t pc).pc u = pc := by
  by_cases same : u = t
  · exact if_pos same
  · exact absurd (if_neg same) moved

theorem Level0.next (level0 : s.Level0) {a : Action T Key Value} (taken : s.next a = some s') :
    s'.Level0 := by
  have synced := level0.synced.next taken
  cases a with
  | call t op =>
      simp only [State.next] at taken
      split at taken
      · split at taken
        all_goals
          cases taken
          refine level0.move ⟨rfl, rfl, rfl⟩ synced fun u moved => ?_
          have moved : (s.goto t (s.begin t op)).pc u ≠ s.pc u := moved
          show s.Local ((s.goto t (s.begin t op)).pc u) ∧ ((s.goto t (s.begin t op)).pc u).owns = none
          rw [goto_pc_ne moved]
          exact local_begin op
      · cases taken
  | exit t =>
      simp only [State.next] at taken
      split at taken
      · cases taken
        refine level0.move ⟨rfl, rfl, rfl⟩ synced fun u moved => ?_
        rw [goto_pc_ne moved]
        exact ⟨trivial, rfl⟩
      · cases taken
  | step t => exact level0.step taken

theorem level0_init : (init : State T Key Value).Level0 := by
  have empty : (init : State T Key Value).chain = [] := rfl
  refine ⟨synced_init, ⟨?_, ?_, ?_, ?_, ?_, ?_, ?_, ?_⟩, ?_, ?_, fun _ => trivial⟩
  · rw [empty]; exact ⟨rfl, trivial⟩
  · rw [empty]; exact List.pairwise_singleton ..
  · rw [empty]; intro a member; cases member
  · intro a isLinked; cases isLinked
  · intro a isLinked; cases isLinked
  · exact Nat.one_pos
  · rfl
  · intro a i above
    simp [init, mkNode, Nat.ne_of_gt above]
  · intro a; simp [init, mkNode, kMaxHeight]
  · intro t u n owned; cases owned

/-- **Every reachable state is ordered**: whatever the threads do, the chain has strictly
increasing keys and holds every published node that is not marked. -/
theorem level0_run {as : List (Action T Key Value)}
    (ran : Theory.run State.next (init : State T Key Value) as = some s) : s.Level0 :=
  Theory.run_induction (fun _ _ _ level0 taken => level0.next taken) level0_init ran

end State

end Ccmetrics.SkipList
