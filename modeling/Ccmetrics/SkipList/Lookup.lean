/-
# SkipList.Lookup -- when a search for a key in the map finds it

`exists`, `find` and `erase` first search for their key. While the key is in the map a search
is bound to reach it, with one exception: when the search itself unlinks a marked node on
level 0 it gives up the place it has reached, sets `cur` to null and reports that there is no
match. `stops` is that step; a call for a key that stays in the map succeeds exactly if it
never takes it (`search_succeeds_iff`).
-/
import Ccmetrics.SkipList.Agreement

namespace Ccmetrics.SkipList

set_option autoImplicit false
set_option linter.unusedSectionVars false

variable {T Key Value : Type} [DecidableEq T] [LinearOrder Key] [Inhabited Key] [Inhabited Value]

/-- The first search of a call. -/
def Op.search : Op Key Value → Option (Find Key Value)
  | .exists_ key => some ⟨key, .exists_⟩
  | .find key => some ⟨key, .find⟩
  | .erase key => some ⟨key, .erase⟩
  | _ => none

/-- What a call returns that does not find its key. -/
def Find.miss (g : Find Key Value) : Result Key Value :=
  match g.site with
  | .find => .value none
  | _ => .flag false

namespace State

variable {s s' : State T Key Value} {t u : T} {e : Effect Key Value} {nx : Next Key Value}
variable {k : Key} {pc : PC Key Value} {g : Find Key Value} {x : Addr}

/-- What a call returns that finds node `x`. -/
def hit (s : State T Key Value) (g : Find Key Value) (x : Addr) : Result Key Value :=
  match g.site with
  | .find => .value (some (s.node x).value)
  | _ => .flag true

/-- A pointer to a node that does not lie behind the place of `k`. -/
def Reaches (s : State T Key Value) (k : Key) (p : Ptr) : Prop :=
  ∃ b, p = .node b ∧ s.linked b = true ∧ s.key b ≤ k

/-- The search `g` is on its way to node `x`, or `erase` is on its way to mark it. -/
def Seeking (s : State T Key Value) (g : Find Key Value) (x : Addr) : PC Key Value → Prop
  | .acquire (.find f) | .findHead f | .findHeight f | .findCur f _ _ | .findNexti f _ _ _
  | .findUnlink f _ _ _ _ => f = g
  | .findNext f _ _ cur => f = g ∧ s.key cur ≤ g.key
  | .findPrev f _ _ cur next | .findDead f _ _ cur next =>
      f = g ∧ s.key cur ≤ g.key ∧
        (next.marked0 = false → s.key cur < g.key → s.Reaches g.key next)
  | .findKey f _ _ cur next =>
      f = g ∧ (s.key cur < g.key → s.Reaches g.key next) ∧ (g.key ≤ s.key cur → cur = x)
  | .findSetPrev f _ _ next | .findSetCur f _ _ next => f = g ∧ s.Reaches g.key next
  | .findMatch f _ cur => f = g ∧ cur = .node x
  | .findValue cur => g.site = .find ∧ cur = x
  | .eraseHeight key cur | .eraseLoad key cur _ _ | .eraseMark key cur _ _ _ =>
      g.site = .erase ∧ key = g.key ∧ cur = x
  | _ => False

/-- `erase` has set the mark itself, or the call has its result. -/
def Answered (s : State T Key Value) (g : Find Key Value) (x : Addr) (pc : PC Key Value) : Prop :=
  (g.site = .erase ∧ ∃ f c, pc.finding = some f ∧ f.site = .eraseAgain c true) ∨
  ∃ i last, pc = .clear i last (.ret (s.hit g x))

/-- The search `g` has given up. -/
def Lost (g : Find Key Value) : PC Key Value → Prop
  | .findDrop f _ _ _ | .findClear f _ _ _ | .findRetire f _ _ _ => f = g
  | .findMatch f _ cur => f = g ∧ cur = .null
  | .clear _ _ (.ret r) => r = g.miss
  | _ => False

/-- The next step of `t` unlinks a marked node on level 0, in the first search of its call. -/
def stops (t : T) (s : State T Key Value) : Action T Key Value → Bool
  | .step u =>
      decide (u = t) &&
        match s.pc t with
        | .findUnlink f 0 prev cur _ =>
            decide ((s.node prev).next 0 = .node cur) &&
              match f.site with
              | .exists_ | .find | .erase => true
              | _ => false
        | _ => false
  | _ => false

section Keeping

variable (memory : s.Memory) (kept : s.Extends s')
include memory kept

theorem Reaches.extend {p : Ptr} (reaches : s.Reaches k p) : s'.Reaches k p := by
  obtain ⟨b, rfl, isLinked, below⟩ := reaches
  exact ⟨b, rfl, kept.linked b isLinked, by rwa [key_extend memory kept isLinked]⟩

theorem Seeking.extend (seeking : s.Seeking g x pc) (here : s.Local pc) : s'.Seeking g x pc := by
  cases pc with
  | findNext f i prev cur =>
      simpa only [Seeking, key_extend memory kept here.linked] using seeking
  | findPrev f i prev cur next =>
      obtain ⟨same, below, reaches⟩ := seeking
      have atKey := key_extend memory kept here.1.linked
      refine ⟨same, by rwa [atKey], fun clean less => ?_⟩
      exact (reaches clean (by rwa [← atKey])).extend memory kept
  | findDead f i prev cur next =>
      obtain ⟨same, below, reaches⟩ := seeking
      have atKey := key_extend memory kept here.1.linked
      refine ⟨same, by rwa [atKey], fun clean less => ?_⟩
      exact (reaches clean (by rwa [← atKey])).extend memory kept
  | findKey f i prev cur next =>
      obtain ⟨same, reaches, isX⟩ := seeking
      have atKey := key_extend memory kept here.1.linked
      refine ⟨same, fun less => ?_, by rwa [atKey]⟩
      exact (reaches (by rwa [← atKey])).extend memory kept
  | findSetPrev f i prev next => exact ⟨seeking.1, seeking.2.extend memory kept⟩
  | findSetCur f i prev next => exact ⟨seeking.1, seeking.2.extend memory kept⟩
  | acquire start => cases start <;> exact seeking
  | clear first last leave => exact seeking
  | _ => exact seeking

end Keeping

/-- The live node of the chain that a search is after. -/
structure Target (s : State T Key Value) (g : Find Key Value) (x : Addr) : Prop where
  linked : s.linked x = true
  key : s.key x = g.key
  alive : s.dead x = false

/-- In front of the target, the pointer of an unmarked node does not lead past it. -/
theorem Target.reaches (target : s.Target g x) (memory : s.Memory) {a : Addr}
    (before : s.Before g.key a) (clean : ((s.node a).next 0).marked0 = false) :
    s.Reaches g.key ((s.node a).next 0) := by
  have member := memory.onChain before.1 clean
  have inChain := memory.live x target.linked target.alive
  have above : s.rank a < s.rank x := by
    rw [memory.rank_linked target.linked, target.key]
    exact before.2
  obtain ⟨b, next, inChain', below⟩ := memory.gap member inChain above
  have isLinked := memory.member b inChain'
  rw [memory.rank_linked target.linked, memory.rank_linked isLinked, target.key,
    WithBot.coe_le_coe] at below
  exact ⟨b, points_of_edge next clean, isLinked, below⟩

theorem Target.unique (target : s.Target g x) (memory : s.Memory) {a : Addr}
    (isLinked : s.linked a = true) (alive : s.dead a = false) (same : s.key a = g.key) : a = x :=
  memory.key_inj (memory.live a isLinked alive) (memory.live x target.linked target.alive)
    (same.trans target.key.symm)

theorem Reaches.loop {i : Nat} {prev : Addr} {p : Ptr} (reaches : s.Reaches g.key p) :
    s.Seeking g x (findLoop g i prev p) := by
  obtain ⟨b, rfl, -, below⟩ := reaches
  exact ⟨rfl, below⟩

theorem seeking_found (prev : Addr) (search : g.site = .exists_ ∨ g.site = .find ∨ g.site = .erase) :
    (s.found g prev (.node x) true).1 = .none ∧
      (s.Seeking g x (s.found g prev (.node x) true).2.pc ∨
        s.Answered g x (s.found g prev (.node x) true).2.pc) := by
  rcases search with site | site | site
  · refine ⟨by simp [found, site], .inr (.inr ⟨0, 2, ?_⟩)⟩
    simp [found, site, hit]
  · refine ⟨by simp [found, site], .inl ?_⟩
    simp only [found, site]
    exact ⟨site, rfl⟩
  · refine ⟨by simp [found, site], .inl ?_⟩
    simp only [found, site]
    exact ⟨site, rfl, rfl⟩

/-- One step of a search for a key that is in the map. -/
theorem Seeking.access (seeking : s.Seeking g x pc) (target : s.Target g x) (here : s.Local pc)
    (access : s.Access t pc e nx) (memory : s.Memory) (tall : ∀ a, 0 < (s.node a).height)
    (search : g.site = .exists_ ∨ g.site = .find ∨ g.site = .erase)
    (goesOn : ∀ f i prev cur nexti, pc = .findUnlink f i prev cur nexti → e = .none) :
    (s.apply t e).Seeking g x nx.pc ∨ (s.apply t e).Answered g x nx.pc := by
  cases access with
  | acquired start =>
      cases start with
      | find f => exact .inl seeking
      | first => exact seeking.elim
      | items what => exact seeking.elim
  | headSet f => exact .inl seeking
  | height f => exact .inl seeking
  | curMarked f i prev isMarked => exact .inl seeking
  | curLoaded f i prev clean =>
      obtain rfl : f = g := seeking
      obtain ⟨-, before, onHead⟩ := here
      cases i with
      | zero => exact .inl (target.reaches memory before clean).loop
      | succ i =>
          obtain rfl := onHead (Nat.succ_ne_zero i)
          simp only [memory.index head (i + 1) (Nat.succ_pos i), findLoop, findDown,
            Nat.succ_ne_zero, if_false]
          exact .inl rfl
  | nextFailed f i prev cur => exact .inl seeking.1
  | nextLoaded f i prev cur =>
      obtain ⟨rfl, below⟩ := seeking
      obtain rfl := here.bottom
      refine .inl ⟨rfl, below, fun clean less => ?_⟩
      exact target.reaches memory (memory.before_linked here.linked less) clean
  | prevChanged f i prev cur next => exact .inl seeking.1
  | prevMarked f i prev cur next points isMarked => exact .inl seeking.1
  | prevSame f i prev cur next points clean => exact .inl seeking
  | dead f i prev cur next isDead => exact .inl seeking.1
  | notDead f i prev cur next alive =>
      obtain ⟨rfl, below, reaches⟩ := seeking
      obtain ⟨window, shared⟩ := here
      refine .inl ⟨rfl, fun less => reaches ?_ less, fun atLeast => ?_⟩
      · cases next <;> first | rfl | exact shared.elim
      · exact target.unique memory window.linked alive (le_antisymm below atLeast)
  | keyReached f i prev cur next reached =>
      obtain ⟨rfl, -, isX⟩ := seeking
      obtain rfl := here.1.bottom
      obtain rfl := isX reached
      exact .inl ⟨rfl, rfl⟩
  | keyBelow f i prev cur next below =>
      obtain ⟨rfl, reaches, -⟩ := seeking
      exact .inl ⟨rfl, reaches below⟩
  | prevSet f i prev next => exact .inl seeking
  | curSet f i prev cur =>
      obtain ⟨rfl, reaches⟩ := seeking
      exact .inl reaches.loop
  | nexti f i prev cur => exact .inl seeking
  | unlinked f i prev cur nexti points => cases goesOn f i prev cur nexti rfl
  | unlinkFailed f i prev cur nexti changed => exact .inl seeking
  | matchNull f prev => cases seeking.2
  | matchNode f prev cur =>
      obtain ⟨rfl, same⟩ := seeking
      cases same
      obtain ⟨none_, next⟩ := seeking_found (s := s) (x := x) prev search
      have isKey : decide ((s.node x).key = f.key) = true := decide_eq_true target.key
      rw [isKey, none_]
      exact next
  | matchFault f prev cur tagged =>
      obtain ⟨-, rfl⟩ := seeking
      rcases tagged with tagged | ⟨a, tagged⟩ <;> cases tagged
  | valueRead cur =>
      obtain ⟨site, rfl⟩ := seeking
      refine .inr (.inr ⟨0, 2, ?_⟩)
      simp [hit, site, apply]
  | eraseFlat key cur flat => exact absurd (tall cur) (by rw [flat]; exact Nat.lt_irrefl 0)
  | eraseTop key cur i top => exact .inl seeking
  | eraseLoaded key cur i m => exact .inl seeking
  | marked key cur i m =>
      obtain ⟨site, rfl, rfl⟩ := seeking
      by_cases bottom : i = 0
      · subst bottom
        have clean := (Ptr.eq_clear_iff _).2 target.alive
        refine .inr (.inl ⟨site, ⟨g.key, .eraseAgain cur true⟩, cur, ?_, rfl⟩)
        simp only [eraseDown, if_true, Next.pc_goto, finding_enter, if_pos clean, true_and]
      · simp only [eraseDown, bottom, if_false]
        exact .inl ⟨site, rfl, rfl⟩
  | markFailed key cur i nexti m => exact .inl seeking
  | _ => exact seeking.elim

theorem value_write {a : Addr} (write : s.Write e) (known : a < s.fresh) :
    ((s.apply t e).node a).value = (s.node a).value := by
  have setNext_value : ∀ b i p, ((s.setNext b i p).node a).value = (s.node a).value := by
    intro b i p
    by_cases same : a = b <;> simp [setNext, modify, same]
  cases write with
  | none | height h | free n k mine => rfl
  | create level key value => simp [apply, Nat.ne_of_lt known]
  | count n k mine | drop n k isLinked => by_cases same : a = n <;> simp [apply, modify, same]
  | store n k cur mine => exact setNext_value n 0 cur
  | unlink prev cur shared isLinked isDead points => exact setNext_value _ _ _
  | link prev n k mine before behind stored =>
      rw [(apply_link (s := s) (t := t) prev n).1, setNext_value]
  | mark cur i isLinked =>
      rw [(apply_mark (s := s) (t := t) cur i ((s.node cur).next i)).1, setNext_value]

/-- A key in the map before and after a step is in the map as the same node. -/
theorem Target.stays (target : s.Target g x) (memory : s.Memory) (write : s.Write e)
    (present : (s.apply t e).holds g.key = true) : (s.apply t e).dead x = false := by
  cases swaps : e.swaps with
  | false =>
      rw [(memory.quiet (t := t) write swaps).2 x target.linked]
      exact target.alive
  | true =>
      cases write with
      | link prev n k mine before behind stored =>
          rw [dead_link behind.alive]
          exact target.alive
      | mark cur i isLinked =>
          obtain ⟨rfl, clean⟩ := of_decide_eq_true swaps
          have alive : s.dead cur = false := (Ptr.eq_clear_iff _).1 clean
          rw [memory.holds_mark isLinked alive, Bool.and_eq_true, decide_eq_true_eq] at present
          have apart : x ≠ cur := by rintro rfl; exact present.2 target.key
          rw [dead_mark, target.alive]
          simp [apart]
      | _ => cases swaps

/-- The second search of `erase` does not change the result. -/
theorem Answered.access (answered : s.Answered g x pc) (here : s.Local pc)
    (access : s.Access t pc e nx) (memory : s.Memory) (tall : ∀ a, 0 < (s.node a).height) :
    s.Answered g x nx.pc ∨ nx = .ret (s.hit g x) := by
  rcases answered with ⟨site, f, c, finding, again⟩ | ⟨i, last, rfl⟩
  · rcases here.access_finding access memory tall finding with onward | ⟨prev, cur, rfl⟩
    · exact .inl (.inl ⟨site, f, c, onward, again⟩)
    · refine .inl (.inr ⟨0, 2, ?_⟩)
      have hit : s.hit g x = .flag true := by simp [State.hit, site]
      rw [hit]
      cases access with
      | matchNull f prev => simp [found, again]
      | matchNode f prev cur => simp [found, again]
      | matchFault f prev cur tagged =>
          rcases tagged with rfl | ⟨a, rfl⟩ <;> exact here.2.2.1.elim
  · cases access with
    | clearedLast => exact .inr rfl
    | cleared => exact .inl (.inr ⟨_, _, rfl⟩)

/-- A search that has given up reports that there is no match. -/
theorem Lost.access (lost : Lost g pc) (here : s.Local pc) (access : s.Access t pc e nx)
    (search : g.site = .exists_ ∨ g.site = .find ∨ g.site = .erase) :
    Lost g nx.pc ∨ nx = .ret g.miss := by
  cases access with
  | dropLast f i prev cur last => exact .inl lost
  | drop f i prev cur more =>
      obtain rfl := here.1.bottom
      exact .inl ⟨lost, rfl⟩
  | curCleared f i prev cur => exact .inl lost
  | retired f i prev cur =>
      obtain rfl := here.1.bottom
      exact .inl ⟨lost, rfl⟩
  | matchNull f prev =>
      obtain ⟨rfl, -⟩ := lost
      rcases search with site | site | site
      · refine .inl ?_
        simp only [found, site]
        simp [Lost, Find.miss, site]
      · refine .inl ?_
        simp only [found, site]
        simp [Lost, Find.miss, site]
      · refine .inr ?_
        simp [found, site, Find.miss]
  | matchNode f prev cur => cases lost.2
  | matchFault f prev cur tagged =>
      obtain ⟨-, rfl⟩ := lost
      rcases tagged with tagged | ⟨a, tagged⟩ <;> cases tagged
  | clearedLast k leave =>
      cases leave with
      | ret r => obtain rfl : r = g.miss := lost; exact .inr rfl
      | free n => exact lost.elim
  | cleared k last leave more =>
      cases leave with
      | ret r => exact .inl lost
      | free n => exact lost.elim
  | acquired start => exact lost.elim
  | _ => exact lost.elim

/-! ## The whole call -/

/-- `k` is in the map, or the running call of `t` has taken it out itself. -/
def present (t : T) (k : Key) (s : State T Key Value) : Bool :=
  s.holds k || (s.running t).any fun e => decide (0 < e.swaps)

/-- Where a call stands that will return `r`. -/
structure Tracks (s : State T Key Value) (t : T) (g : Find Key Value) (x : Addr)
    (r : Result Key Value) : Prop where
  linked : s.linked x = true
  key : s.key x = g.key
  hit : s.hit g x = r
  stands : (s.Seeking g x (s.pc t) ∧ (s.holds g.key = true → s.dead x = false)) ∨
    s.Answered g x (s.pc t) ∨ (s.pc t = .idle ∧ s.result t = r)

/-- Where a call stands that will find nothing. -/
def Misses (s : State T Key Value) (t : T) (g : Find Key Value) : Prop :=
  Lost g (s.pc t) ∨ (s.pc t = .idle ∧ s.result t = g.miss)

theorem hit_congr (same : (s'.node x).value = (s.node x).value) : s'.hit g x = s.hit g x := by
  simp only [hit, same]

theorem Seeking.not_swapped (seeking : s.Seeking g x pc) {o : Option (Update Key)}
    (logged : pc.Logged o) (search : g.site = .exists_ ∨ g.site = .find ∨ g.site = .erase) :
    (o.any fun e => decide (0 < e.swaps)) = false := by
  have ofFind : g.Logged o → (o.any fun e => decide (0 < e.swaps)) = false := by
    intro logged
    simp only [Find.Logged] at logged
    rcases search with site | site | site <;> rw [site] at logged <;> rw [logged] <;> rfl
  cases pc with
  | acquire start =>
      cases start with
      | find f => obtain rfl : f = g := seeking; exact ofFind logged
      | first => exact seeking.elim
      | items what => exact seeking.elim
  | findHead f | findHeight f | findCur f | findNexti f | findUnlink f =>
      obtain rfl : f = g := seeking
      exact ofFind logged
  | findNext f | findPrev f | findDead f | findKey f | findSetPrev f | findSetCur f | findMatch f =>
      obtain rfl : f = g := seeking.1
      exact ofFind logged
  | findValue cur => rw [show o = none from logged]; rfl
  | eraseHeight | eraseLoad | eraseMark => rw [show o = some _ from logged]; rfl
  | _ => exact seeking.elim

theorem apply_result (e : Effect Key Value) : (s.apply t e).result = s.result := by
  have swapped_result : ∀ q : State T Key Value, (q.swapped t).result = q.result := by
    intro q
    simp only [swapped]
    split <;> rfl
  cases e with
  | link prev n => exact swapped_result _
  | mark cur i nexti =>
      simp only [apply]
      split
      · exact swapped_result _
      · rfl
  | _ => rfl

theorem after_result_other (other : u ≠ t) : (s.after t nx).result u = s.result u := by
  cases nx with
  | goto pc => rfl
  | ret r => simp [after, ret, other]

theorem after_result_self (r : Result Key Value) : (s.after t (.ret r)).result t = r := by
  simp [after, ret]

/-- Calls and exits touch no node, and no thread that is in a call. -/
theorem next_outside {a : Action T Key Value} (outside : ∀ u, a ≠ .step u)
    (taken : s.next a = some s') : s.SameNodes s' ∧
      ((s.pc t).isIdle = false → s'.pc t = s.pc t ∧ s'.result t = s.result t) := by
  have moved : ∀ u pc, (s.pc u).isIdle = true → (s.pc t).isIdle = false →
      (s.goto u pc).pc t = s.pc t := by
    intro u pc idle busy
    have other : t ≠ u := by rintro rfl; rw [idle] at busy; cases busy
    simp [State.goto, other]
  cases a with
  | call u op =>
      simp only [State.next] at taken
      split at taken
      · rename_i enabled
        split at taken
        all_goals
          cases taken
          exact ⟨⟨rfl, rfl, rfl⟩, fun busy => ⟨moved u _ enabled.1 busy, rfl⟩⟩
      · cases taken
  | exit u =>
      simp only [State.next] at taken
      split at taken
      · rename_i enabled
        cases taken
        exact ⟨⟨rfl, rfl, rfl⟩, fun busy => ⟨moved u _ enabled.1 busy, rfl⟩⟩
      · cases taken
  | step u => exact absurd rfl (outside u)

/-- A thread that is in a call only moves by its own steps. -/
theorem next_other {a : Action T Key Value} (synced : s.Synced) (busy : (s.pc t).isIdle = false)
    (other : a ≠ .step t) (taken : s.next a = some s') :
    s'.pc t = s.pc t ∧ s'.result t = s.result t := by
  cases a with
  | step u =>
      have apart : t ≠ u := by rintro rfl; exact other rfl
      rcases step_map synced taken with ⟨sys, -, rfl⟩ | ⟨sys, e, nx, -, rfl⟩
      · exact ⟨rfl, rfl⟩
      · exact ⟨by rw [after_pc_other apart, apply_pc], by rw [after_result_other apart, apply_result]⟩
  | call u op => exact (next_outside (fun v same => by cases same) taken).2 busy
  | exit u => exact (next_outside (fun v same => by cases same) taken).2 busy

/-- A step of another thread. -/
theorem Tracks.keep {r : Result Key Value} (tracks : s.Tracks t g x r) (memory : s.Memory)
    (here : s.Local (s.pc t)) (kept : s.Extends s') (value : (s'.node x).value = (s.node x).value)
    (stays : s.Seeking g x (s.pc t) → (s.holds g.key = true → s.dead x = false) →
      s'.holds g.key = true → s'.dead x = false)
    (pc : s'.pc t = s.pc t) (result : s'.result t = s.result t) : s'.Tracks t g x r := by
  refine ⟨kept.linked x tracks.linked, (key_extend memory kept tracks.linked).trans tracks.key,
    (hit_congr value).trans tracks.hit, ?_⟩
  rw [pc, result]
  rcases tracks.stands with ⟨seeking, alive⟩ | answered | returned
  · exact .inl ⟨seeking.extend memory kept here, stays seeking alive⟩
  · refine .inr (.inl ?_)
    simpa only [Answered, hit_congr value] using answered
  · exact .inr (.inr returned)

/-- Moves that no node sees. -/
theorem Tracks.same {r : Result Key Value} (tracks : s.Tracks t g x r) (memory : s.Memory)
    (here : s.Local (s.pc t)) (same : s.SameNodes s') (pc : s'.pc t = s.pc t)
    (result : s'.result t = s.result t) : s'.Tracks t g x r := by
  refine tracks.keep memory here same.extends (by rw [same.node]) ?_ pc result
  intro _ alive present
  rw [same.holds] at present
  rw [dead, same.node]
  exact alive present

section Steps

variable {r : Result Key Value} (search : g.site = .exists_ ∨ g.site = .find ∨ g.site = .erase)
include search

/-- While the search goes on and the key is present, the target is in the map. -/
theorem Tracks.target (tracks : s.Tracks t g x r) (logged : s.Logged)
    (seeking : s.Seeking g x (s.pc t)) (alive : s.holds g.key = true → s.dead x = false)
    (present : s.present t g.key = true) : s.Target g x := by
  have none_ := seeking.not_swapped (logged.here t) search
  rw [State.present, none_, Bool.or_false] at present
  exact ⟨tracks.linked, tracks.key, alive present⟩

theorem Tracks.other {sys : Hazard.Sys T Ptr (Addr × Nat)} (tracks : s.Tracks t g x r)
    (books : s.Books) (present : s.present t g.key = true) (other : t ≠ u)
    (access : s.Access u (s.pc u) e nx) :
    (({ s with sys := sys }.apply u e).after u nx).Tracks t g x r := by
  have memory := books.level0.memory
  have write := (books.level0.here u).write access
  have same := sameNodes_after (s := s) (t := u) sys e nx
  have kept := memory.extends_write (t := u) write
  refine tracks.keep memory (books.level0.here t) (kept.same same) ?_ ?_ ?_ ?_
  · rw [same.node]
    exact value_write write (memory.known x tracks.linked).2
  · intro seeking alive present'
    rw [same.holds] at present'
    rw [dead, same.node]
    exact (tracks.target search books.logged seeking alive present).stays memory write present'
  · rw [after_pc_other other, apply_pc]
  · rw [after_result_other other, apply_result]

omit search in
theorem stops_spec : stops t s (.step t) = true ↔ ∃ f prev cur nexti,
    s.pc t = .findUnlink f 0 prev cur nexti ∧ (s.node prev).next 0 = .node cur ∧
      (f.site = .exists_ ∨ f.site = .find ∨ f.site = .erase) := by
  simp only [stops, decide_true, Bool.true_and]
  split
  · rename_i f prev cur nexti atUnlink
    rw [Bool.and_eq_true, decide_eq_true_eq]
    constructor
    · rintro ⟨points, first⟩
      refine ⟨f, prev, cur, nexti, atUnlink, points, ?_⟩
      cases site : f.site <;> rw [site] at first <;> simp_all
    · rintro ⟨f', prev', cur', nexti', same, points, first⟩
      cases atUnlink.symm.trans same
      refine ⟨points, ?_⟩
      rcases first with site | site | site <;> rw [site]
  · rename_i notUnlink
    simp only [Bool.false_eq_true, false_iff, not_exists, not_and]
    intro f prev cur nexti atUnlink
    exact absurd atUnlink (notUnlink f prev cur nexti)

/-- A step of the call itself: it goes on, or it gives up. -/
theorem Tracks.own {sys : Hazard.Sys T Ptr (Addr × Nat)} (tracks : s.Tracks t g x r)
    (books : s.Books) (present : s.present t g.key = true) (busy : (s.pc t).isIdle = false)
    (access : s.Access t (s.pc t) e nx) :
    (stops t s (.step t) = false ∧ (({ s with sys := sys }.apply t e).after t nx).Tracks t g x r) ∨
    (stops t s (.step t) = true ∧ (({ s with sys := sys }.apply t e).after t nx).Misses t g) := by
  have memory := books.level0.memory
  have here := books.level0.here t
  have write := here.write access
  have same := sameNodes_after (s := s) (t := t) sys e nx
  have kept := (memory.extends_write (t := t) write).same same
  have value : ((({ s with sys := sys }.apply t e).after t nx).node x).value = (s.node x).value := by
    rw [same.node]
    exact value_write write (memory.known x tracks.linked).2
  have tracksOf : (((({ s with sys := sys }.apply t e).after t nx).Seeking g x nx.pc ∧
      ((({ s with sys := sys }.apply t e).after t nx).holds g.key = true →
        (({ s with sys := sys }.apply t e).after t nx).dead x = false)) ∨
      (({ s with sys := sys }.apply t e).after t nx).Answered g x nx.pc ∨
      nx = .ret (s.hit g x)) → (({ s with sys := sys }.apply t e).after t nx).Tracks t g x r := by
    intro stands
    refine ⟨kept.linked x tracks.linked, (key_extend memory kept tracks.linked).trans tracks.key,
      (hit_congr value).trans tracks.hit, ?_⟩
    rw [after_pc_self]
    rcases stands with seeking | answered | rfl
    · exact .inl seeking
    · exact .inr (.inl answered)
    · exact .inr (.inr ⟨rfl, by rw [after_result_self]; exact tracks.hit⟩)
  rcases tracks.stands with ⟨seeking, alive⟩ | answered | ⟨idle, -⟩
  · have target := tracks.target search books.logged seeking alive present
    cases stop : stops t s (.step t) with
    | true =>
        obtain ⟨f, prev, cur, nexti, atUnlink, points, -⟩ := stops_spec.1 stop
        refine .inr ⟨rfl, .inl ?_⟩
        rw [after_pc_self]
        rw [atUnlink] at access seeking
        cases access with
        | unlinked => exact seeking
        | unlinkFailed f i prev cur nexti changed => exact absurd points changed
    | false =>
        refine .inl ⟨rfl, tracksOf ?_⟩
        have goesOn : ∀ f i prev cur nexti, s.pc t = .findUnlink f i prev cur nexti → e = .none := by
          intro f i prev cur nexti atUnlink
          rw [atUnlink] at access here seeking
          obtain rfl : f = g := seeking
          obtain rfl := here.1.bottom
          cases access with
          | unlinked f i prev cur nexti points =>
              rw [stops_spec.2 ⟨f, prev, cur, nexti, atUnlink, points, search⟩] at stop
              cases stop
          | unlinkFailed => rfl
        have memory' := (memory.write (t := t) write).1
        have local' := here.access access memory books.level0.tall
        rcases seeking.access target here access memory books.level0.tall search goesOn with
          onward | answered
        · refine .inl ⟨onward.extend memory' same.extends local', fun present' => ?_⟩
          rw [same.holds] at present'
          rw [dead, same.node]
          exact target.stays memory write present'
        · refine .inr (.inl ?_)
          simpa only [Answered, hit_congr (congrArg Node.value (congrFun same.node x))] using answered
  · refine .inl ⟨?_, tracksOf ?_⟩
    · -- the second search is not the one that decides
      cases stop : stops t s (.step t) with
      | false => rfl
      | true =>
          obtain ⟨f, prev, cur, nexti, atUnlink, -, first⟩ := stops_spec.1 stop
          rw [atUnlink] at answered
          rcases answered with ⟨-, f', c, finding, again⟩ | ⟨i, last, atClear⟩
          · cases finding
            rw [again] at first
            rcases first with site | site | site <;> cases site
          · cases atClear
    · rcases answered.access here access memory books.level0.tall with onward | returned
      · refine .inr (.inl ?_)
        simpa only [Answered, hit_congr value] using onward
      · exact .inr (.inr returned)
  · rw [idle] at busy
    cases busy

theorem Tracks.next (tracks : s.Tracks t g x r) (books : s.Books)
    (present : s.present t g.key = true) (busy : (s.pc t).isIdle = false)
    {a : Action T Key Value} (taken : s.next a = some s') :
    (stops t s a = false ∧ s'.Tracks t g x r) ∨ (stops t s a = true ∧ s'.Misses t g) := by
  have memory := books.level0.memory
  have here := books.level0.here t
  have outside : (∀ u, a ≠ .step u) → s'.Tracks t g x r := by
    intro noStep
    obtain ⟨same, kept⟩ := next_outside (t := t) noStep taken
    exact tracks.same memory here same (kept busy).1 (kept busy).2
  cases a with
  | call u op => exact .inl ⟨rfl, outside fun v same => by cases same⟩
  | exit u => exact .inl ⟨rfl, outside fun v same => by cases same⟩
  | step u =>
      rcases step_map books.level0.synced taken with ⟨sys, calls, rfl⟩ | ⟨sys, e, nx, access, rfl⟩
      · refine .inl ⟨?_, tracks.same memory here ⟨rfl, rfl, rfl⟩ rfl rfl⟩
        by_cases isT : u = t
        · subst isT
          cases stop : stops u s (.step u) with
          | false => rfl
          | true =>
              obtain ⟨f, prev, cur, nexti, atUnlink, -, -⟩ := stops_spec.1 stop
              rw [atUnlink] at calls
              exact absurd rfl calls
        · simp [stops, isT]
      · by_cases isT : u = t
        · subst isT
          exact tracks.own search books present busy access
        · refine .inl ⟨by simp [stops, isT], ?_⟩
          exact tracks.other search books present (Ne.symm isT) access

theorem Misses.next (misses : s.Misses t g) (level0 : s.Level0) (busy : (s.pc t).isIdle = false)
    {a : Action T Key Value} (taken : s.next a = some s') : s'.Misses t g := by
  have stay : s'.pc t = s.pc t ∧ s'.result t = s.result t → s'.Misses t g := by
    rintro ⟨pc, result⟩
    rw [Misses, pc, result]
    exact misses
  cases a with
  | call u op => exact stay (next_other level0.synced busy (fun same => by cases same) taken)
  | exit u => exact stay (next_other level0.synced busy (fun same => by cases same) taken)
  | step u =>
      by_cases isT : u = t
      · subst isT
        rcases step_map level0.synced taken with ⟨sys, -, rfl⟩ | ⟨sys, e, nx, access, rfl⟩
        · exact stay ⟨rfl, rfl⟩
        · rcases misses with lost | ⟨idle, -⟩
          · rcases lost.access (level0.here u) access search with onward | rfl
            · exact .inl (by rw [after_pc_self]; exact onward)
            · exact .inr ⟨after_pc_self, after_result_self _⟩
          · rw [idle] at busy; cases busy
      · refine stay (next_other level0.synced busy (fun same => isT ?_) taken)
        cases same
        rfl

/-- The call is running, and its key is in the map or taken out by the call itself. -/
def During (t : T) (k : Key) (s : State T Key Value) (_ : Action T Key Value) : Prop :=
  (s.pc t).isIdle = false ∧ s.present t k = true

theorem Misses.run {as : List (Action T Key Value)} (misses : s.Misses t g) (level0 : s.Level0)
    (during : Theory.Along State.next (During t k) s as)
    (ran : Theory.run State.next s as = some s') : s'.Misses t g :=
  (Theory.run_along (P := fun q : State T Key Value => q.Misses t g ∧ q.Level0)
    (fun _ _ _ before met taken => ⟨before.1.next search before.2 met.1 taken, before.2.next taken⟩)
    ⟨misses, level0⟩ during ran).1

/-- A search goes on to its target up to the first time it stops, if it ever does. -/
theorem Tracks.run {as : List (Action T Key Value)} (tracks : s.Tracks t g x r) (books : s.Books)
    (during : Theory.Along State.next (During t g.key) s as)
    (ran : Theory.run State.next s as = some s') :
    (Theory.Along State.next (fun s a => stops t s a = false) s as ∧ s'.Tracks t g x r) ∨
    (¬ Theory.Along State.next (fun s a => stops t s a = false) s as ∧ s'.Misses t g) := by
  induction as generalizing s with
  | nil =>
      simp only [Theory.run_nil, Option.some.injEq] at ran
      exact .inl ⟨trivial, ran ▸ tracks⟩
  | cons a rest ih =>
      obtain ⟨mid, taken, ran⟩ := Theory.run_cons_eq_some.1 ran
      have later := during.2 mid taken
      rcases tracks.next search books during.1.2 during.1.1 taken with ⟨goes, onward⟩ | ⟨stop, misses⟩
      · rcases ih onward (books.next taken) later ran with ⟨quiet, ends⟩ | ⟨loud, ends⟩
        · refine .inl ⟨⟨goes, fun s₁ taken₁ => ?_⟩, ends⟩
          cases Option.some.inj (taken.symm.trans taken₁)
          exact quiet
        · exact .inr ⟨fun quiet => loud (quiet.2 mid taken), ends⟩
      · refine .inr ⟨fun quiet => ?_, misses.run search (books.level0.next taken) later ran⟩
        rw [quiet.1] at stop
        cases stop

end Steps

/-- The value that `k` is bound to. -/
def lookup (s : State T Key Value) (k : Key) : Option Value :=
  (s.chain.find? fun a => decide (s.key a = k) && !s.dead a).map fun a => (s.node a).value

/-- What a call returns that finds its key. -/
def answer (s : State T Key Value) : Op Key Value → Result Key Value
  | .find key => .value (s.lookup key)
  | _ => .flag true

/-- A call for a key that is in the map starts on its way to the node. -/
theorem tracks_call {op : Op Key Value} (memory : s'.Memory) (isSearch : op.search = some g)
    (starts : s'.pc t = s.begin t op) (present : s'.holds g.key = true) :
    ∃ x, s'.Tracks t g x (s'.answer op) := by
  obtain ⟨x, found⟩ : ∃ x,
      (s'.chain.find? fun a => decide (s'.key a = g.key) && !s'.dead a) = some x := by
    rw [← Option.isSome_iff_exists, List.find?_isSome]
    exact List.any_eq_true.1 present
  have isTarget := List.find?_some found
  simp only [Bool.and_eq_true, decide_eq_true_eq, Bool.not_eq_true'] at isTarget
  have isLinked := memory.member x (List.mem_of_find?_eq_some found)
  refine ⟨x, isLinked, isTarget.1, ?_, .inl ⟨?_, fun _ => isTarget.2⟩⟩
  · cases op <;> cases isSearch <;> first | rfl | simp [hit, answer, lookup, found]
  · rw [starts]
    cases op <;> cases isSearch <;> simp only [begin, enter] <;> split <;> rfl

theorem search_site {op : Op Key Value} (isSearch : op.search = some g) :
    g.site = .exists_ ∨ g.site = .find ∨ g.site = .erase := by
  cases op <;> cases isSearch <;> simp

theorem hit_ne_miss : s.hit g x ≠ g.miss := by
  simp only [hit, Find.miss]
  split <;> simp

/-- The point at which a call starts. -/
theorem next_call_pc {op : Op Key Value} (called : s.next (.call t op) = some s') :
    s'.pc t = s.begin t op := by
  simp only [State.next] at called
  split at called
  · split at called <;> (cases called; simp [State.goto])
  · cases called

/-- **A search for a key in the map succeeds exactly if it never stops**: let a call of `exists`,
`find` or `erase` run from `s₁` to `s₂`, with its key in the map at every moment, or until the
call takes it out itself. It returns true (with the value of the key) if and only if its first
search never unlinks a marked node on level 0. -/
theorem search_succeeds_iff {as bs : List (Action T Key Value)} {s₁ s₂ : State T Key Value}
    {op : Op Key Value} (ran : Theory.run State.next (init : State T Key Value) as = some s)
    (isSearch : op.search = some g) (called : s.next (.call t op) = some s₁)
    (during : Theory.Along State.next (During t g.key) s₁ bs)
    (ran' : Theory.run State.next s₁ bs = some s₂) (returned : (s₂.pc t).isIdle = true) :
    s₂.result t = s₁.answer op ↔
      Theory.Along State.next (fun s a => stops t s a = false) s₁ bs := by
  have books := books_run books_init ran
  have books₁ := books.next called
  have search := search_site isSearch
  have starts := next_call_pc called
  -- the call cannot be over before it has made a step
  obtain ⟨a, rest, rfl⟩ : ∃ a rest, bs = a :: rest := by
    cases bs with
    | cons a rest => exact ⟨a, rest, rfl⟩
    | nil =>
        simp only [Theory.run_nil, Option.some.injEq] at ran'
        rw [← ran', starts] at returned
        cases op <;> cases isSearch <;> simp only [begin, enter] at returned <;>
          split at returned <;> cases returned
  have present : s₁.holds g.key = true := by
    have seeking : s₁.Seeking g 0 (s₁.pc t) := by
      rw [starts]
      cases op <;> cases isSearch <;> simp only [begin, enter] <;> split <;> rfl
    have none_ := seeking.not_swapped (books₁.logged.here t) search
    have atStart := during.1.2
    rwa [State.present, none_, Bool.or_false] at atStart
  obtain ⟨x, tracks⟩ := tracks_call books₁.level0.memory isSearch starts present
  have idle : s₂.pc t = .idle := by
    cases pc : s₂.pc t <;> rw [pc] at returned <;> first | rfl | cases returned
  rcases tracks.run search books₁ during ran' with ⟨quiet, ends⟩ | ⟨loud, ends⟩
  · rcases ends.stands with ⟨seeking, -⟩ | answered | ⟨-, result⟩
    · rw [idle] at seeking; exact seeking.elim
    · rw [idle] at answered
      rcases answered with ⟨-, f, c, finding, -⟩ | ⟨i, last, atClear⟩
      · cases finding
      · cases atClear
    · exact ⟨fun _ => quiet, fun _ => result⟩
  · rcases ends with lost | ⟨-, result⟩
    · rw [idle] at lost; exact lost.elim
    · refine ⟨fun same => ?_, fun quiet => absurd quiet loud⟩
      rw [result, ← tracks.hit] at same
      exact absurd same.symm hit_ne_miss

instance (t : T) (k : Key) (s : State T Key Value) (a : Action T Key Value) :
    Decidable (During t k s a) := inferInstanceAs (Decidable (_ ∧ _))

/-- The map holds 1 and 2, and thread 1 has marked 1 but not unlinked it. -/
def halfErased : List (Action (Fin 2) Nat Nat) :=
  Action.call 0 (.insert 1 10 0) :: List.replicate 21 (.step 0) ++
    Action.call 0 (.insert 2 20 0) :: List.replicate 24 (.step 0) ++
    Action.call 1 (.erase 1) :: List.replicate 21 (.step 1)

/-- Thread 1 unlinks the node itself, and then `exists(2)` of thread 0 finds its key. -/
theorem search_succeeds_after_unlink : ∃ s s₁ s₂ : State (Fin 2) Nat Nat,
    Theory.run State.next State.init halfErased = some s ∧
    s.next (.call 0 (.exists_ 2)) = some s₁ ∧
    Theory.run State.next s₁
      (List.replicate 19 (Action.step 1) ++ List.replicate 15 (Action.step 0)) = some s₂ ∧
    s₂.result 0 = .flag true := by
  have played : ((Theory.run State.next State.init halfErased).bind fun s : State (Fin 2) Nat Nat =>
      (s.next (.call 0 (.exists_ 2))).bind fun s₁ =>
        (Theory.run State.next s₁
          (List.replicate 19 (Action.step 1) ++ List.replicate 15 (Action.step 0))).map fun s₂ =>
            decide (Theory.Along State.next (During 0 2) s₁
                (List.replicate 19 (Action.step 1) ++ List.replicate 15 (Action.step 0)) ∧
              Theory.Along State.next (fun s a => stops 0 s a = false) s₁
                (List.replicate 19 (Action.step 1) ++ List.replicate 15 (Action.step 0)) ∧
              (s₂.pc 0).isIdle = true)) = some true := by decide +kernel
  obtain ⟨s, ran, played⟩ := Option.bind_eq_some_iff.1 played
  obtain ⟨s₁, called, played⟩ := Option.bind_eq_some_iff.1 played
  obtain ⟨s₂, ran', checked⟩ := Option.map_eq_some_iff.1 played
  obtain ⟨during, quiet, returned⟩ := of_decide_eq_true checked
  exact ⟨s, s₁, s₂, ran, called, ran',
    (search_succeeds_iff ran rfl called during ran' returned).2 quiet⟩

/-- Here `exists(2)` comes first and unlinks the node: it returns false for a key that is in the
map all the time. -/
theorem search_misses_present_key : ∃ s s₁ s₂ : State (Fin 2) Nat Nat,
    Theory.run State.next State.init halfErased = some s ∧
    s.next (.call 0 (.exists_ 2)) = some s₁ ∧
    Theory.Along State.next (During 0 2) s₁ (List.replicate 19 (.step 0)) ∧
    Theory.run State.next s₁ (List.replicate 19 (.step 0)) = some s₂ ∧
    (s₂.pc 0).isIdle = true ∧ s₂.holds 2 = true ∧ s₂.result 0 = .flag false := by
  have played : ((Theory.run State.next State.init halfErased).bind fun s : State (Fin 2) Nat Nat =>
      (s.next (.call 0 (.exists_ 2))).bind fun s₁ =>
        (Theory.run State.next s₁ (List.replicate 19 (.step 0))).map fun s₂ =>
          decide (Theory.Along State.next (During 0 2) s₁ (List.replicate 19 (.step 0)) ∧
            (s₂.pc 0).isIdle = true ∧ s₂.holds 2 = true ∧ s₂.result 0 = .flag false)) =
        some true := by decide +kernel
  obtain ⟨s, ran, played⟩ := Option.bind_eq_some_iff.1 played
  obtain ⟨s₁, called, played⟩ := Option.bind_eq_some_iff.1 played
  obtain ⟨s₂, ran', checked⟩ := Option.map_eq_some_iff.1 played
  obtain ⟨during, returned, present, result⟩ := of_decide_eq_true checked
  exact ⟨s, s₁, s₂, ran, called, during, ran', returned, present, result⟩

end State

end Ccmetrics.SkipList
