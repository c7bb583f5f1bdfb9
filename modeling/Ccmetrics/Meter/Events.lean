/-
# Meter.Events -- every event is counted by one tick at most

`tick` reads `buffer_` and then resets it, and other threads go on recording events in between. The
source says of it: "you just lost some events. Do you care?" Here it is said which events can be
lost: those that are recorded while a tick is between the two (`counted_once`), provided that no two
ticks of the average overlap. They do overlap when a thread is kept in the middle of a tick for a
whole interval; then an event can even be counted twice (`counted_twice`).

The buffers of `Averages` are followed by a `Striped.Collected`: a tick is one of its rounds.
-/
import Ccmetrics.Meter.Concurrent

namespace Ccmetrics.Meter

set_option autoImplicit false
set_option linter.unusedSectionVars false

open Striped (Word Collected)

variable {T R : Type} [DecidableEq T] [DecidableEq R] [Fintype T]

namespace Averages

variable {s s' : Averages T R} {c c' : Collected T R} {t u : T} {r : R}

/-- Thread `t` has begun to read the buffer of `r` and has not come back from resetting it. -/
def draining (s : Averages T R) (r : R) (t : T) : Bool :=
  match s.pc t with
  | .value this _ _ => this = r
  | .reset this _ _ _ => this = r ∧ s.buffers.pc t ≠ .idle
  | _ => false

/-- The deltas are not negative and stay below 2^63 in total, and no tick of `r` begins to read the
buffer while another one is at it. -/
def Orderly (r : R) (s : Averages T R) : Action T R → Prop
  | .step t =>
      match s.pc t with
      | .add this val _ => this = r → Striped.started s.buffers.log r + val.toNat < 2 ^ 63
      | .tick this _ (_ + 1) => this = r → ∀ u, s.draining r u = false
      | _ => True
  | _ => True

/-- In which member function of a buffer the thread is. -/
def Calls (s : Averages T R) (t : T) : Prop :=
  match s.pc t with
  | .adding _ _ => ∀ r, Striped.State.Apart r (s.buffers.pc t)
  | .value this _ _ => s.buffers.pc t = .idle ∨ (s.buffers.pc t).reading = some this
  | .reset this _ _ _ => s.buffers.pc t = .idle ∨ (s.buffers.pc t).resetting = some this
  | _ => s.buffers.pc t = .idle

instance (r : R) (s : Averages T R) : (a : Action T R) → Decidable (Orderly r s a)
  | .step t =>
      match atPc : s.pc t with
      | .add this val _ =>
          decidable_of_iff (this = r → Striped.started s.buffers.log r + val.toNat < 2 ^ 63)
            (by rw [Orderly, atPc])
      | .tick this _ (left + 1) =>
          decidable_of_iff (this = r → ∀ u, s.draining r u = false) (by rw [Orderly, atPc])
      | .idle | .adding _ _ | .now _ _ | .load _ _ _ | .swap _ _ _ _ | .tick _ _ 0
      | .value _ _ _ | .reset _ _ _ _ | .init _ _ _ _ | .rate _ _ _ _ | .swapRate _ _ _ _ _
      | .storeRate _ _ _ _ | .storeInit _ _ _ | .result _ =>
          isTrue (by rw [Orderly, atPc]; trivial)
  | .make _ _ | .update _ _ _ _ | .rate _ _ | .spurious _ | .wait _ | .reclaim _ => isTrue trivial

/-- What a thread has read from the buffer of `r` and not taken for its tick. -/
def returned (s : Averages T R) (r : R) (t : T) : Nat :=
  match s.pc t with
  | .value this _ _ =>
      if this = r ∧ s.buffers.pc t = .idle then (s.buffers.result t).toNat else 0
  | _ => 0

/-- `c` follows the buffer of `r`. -/
structure Follows (s : Averages T R) (r : R) (c : Collected T R) : Prop where
  buffers : c.state = s.buffers
  sound : Collected.Sound r c
  calls : ∀ t, s.Calls t
  turn : ∀ t, c.turn = some t ↔ s.draining r t = true
  counted : 0 ≤ (s.counts r).sum
  collected : (c.collected : Int) = (s.counts r).sum + ((∑ t, s.returned r t : Nat) : Int)

theorem same_of_goto (others : ∀ u, u ≠ t → s'.pc u = s.pc u)
    (inside : ∀ u, u ≠ t → s'.buffers.pc u = s.buffers.pc u)
    (results : ∀ u, u ≠ t → s'.buffers.result u = s.buffers.result u) (other : u ≠ t) :
    (s'.Calls u ↔ s.Calls u) ∧ s'.draining r u = s.draining r u ∧
      s'.returned r u = s.returned r u := by
  simp only [Calls, draining, returned, others u other, inside u other, results u other, and_self]

/-- A step of thread `t`, which `c` follows to `c'`. -/
theorem Follows.step (follows : s.Follows r c) (buffers : c'.state = s'.buffers)
    (sound : Collected.Sound r c') (others : ∀ u, u ≠ t → s'.pc u = s.pc u)
    (inside : ∀ u, u ≠ t → s'.buffers.pc u = s.buffers.pc u)
    (results : ∀ u, u ≠ t → s'.buffers.result u = s.buffers.result u) (calls : s'.Calls t)
    (mine : c'.turn = some t ↔ s'.draining r t = true)
    (theirs : ∀ u, u ≠ t → (c'.turn = some u ↔ c.turn = some u))
    (counted : 0 ≤ (s'.counts r).sum)
    (collected : (c'.collected : Int) + (s.counts r).sum + s.returned r t =
      c.collected + (s'.counts r).sum + s'.returned r t) : s'.Follows r c' where
  buffers := buffers
  sound := sound
  calls u := by
    by_cases same : u = t
    · exact same ▸ calls
    · exact (same_of_goto (r := r) others inside results same).1.2 (follows.calls u)
  turn u := by
    by_cases same : u = t
    · exact same ▸ mine
    · rw [theirs u same, follows.turn u, (same_of_goto others inside results same).2.1]
  counted := counted
  collected := by
    have moved := Theory.sum_moved (f := s.returned r) (g := s'.returned r) (t := t) fun u other =>
      (same_of_goto others inside results other).2.2
    have before := follows.collected
    omega

/-- The buffers stay as they are. -/
theorem Follows.stays (follows : s.Follows r c) (buffers : s'.buffers = s.buffers)
    (counts : s'.counts r = s.counts r) {pc : PC R} (pcs : s'.pc = (s.goto t pc).pc)
    (calls : s'.Calls t) (before : s.draining r t = false) (after : s'.draining r t = false)
    (nothing : s.returned r t = 0) (nothing' : s'.returned r t = 0) : s'.Follows r c := by
  refine follows.step (follows.buffers.trans buffers.symm) follows.sound (fun u other => ?_)
    (fun u _ => by rw [buffers]) (fun u _ => by rw [buffers]) calls ?_ (fun u _ => Iff.rfl) ?_ ?_
  · rw [pcs, goto_pc_other other]
  · rw [follows.turn t, before, after]
  · rw [counts]
    exact follows.counted
  · rw [counts, nothing, nothing']

/-! ## Steps inside the buffers -/

section Buffers

variable {b b' : Striped.State T R} {e : Striped.Effect R} {nx : Striped.Next R} {o : R}

/-- A call of `value` goes on or returns. -/
theorem access_value {pc : Striped.PC R} (access : b.Access t pc e nx)
    (reading : pc.reading = some o) :
    Striped.State.Next.pc nx = .idle ∨ (Striped.State.Next.pc nx).reading = some o := by
  cases access <;> first | exact .inr reading | exact .inl rfl | cases reading
  case valueSize | valueGet =>
      simp only [Striped.State.valueLoop, Striped.State.Next.pc_goto]
      split <;> exact .inr rfl

theorem access_reset {pc : Striped.PC R} (access : b.Access t pc e nx)
    (resetting : pc.resetting = some o) :
    Striped.State.Next.pc nx = .idle ∨ (Striped.State.Next.pc nx).resetting = some o := by
  cases access <;> first | exact .inr resetting | exact .inl rfl | cases resetting | skip
  case load site | loadSet site cur | loadAgain site cur =>
      cases site <;> exact .inr resetting
  case loadSame site =>
      cases site <;> cases resetting
      simp only [Striped.Site.this]
      cases b.stripes o
      · exact .inl rfl
      · exact .inr rfl
  case resetSize | resetGet =>
      simp only [Striped.State.resetLoop, Striped.State.Next.pc_goto]
      split <;> exact .inr rfl

/-- The step of a thread in a buffer, followed. -/
theorem Follows.buffer (follows : s.Follows r c) (ran : s.buffers.next (.step t) = some b) :
    ∃ c' e nx, s.buffers.Access t (s.buffers.pc t) e nx ∧ b = s.buffers.after t e nx ∧
      Collected.next r c (.step t) = some c' ∧ Collected.Sound r c' ∧ c'.state = b ∧
      c'.turn = (if (s.buffers.pc t).resetting = some r ∧ b.pc t = .idle then none else c.turn) ∧
      c'.collected = if (s.buffers.pc t).reading = some r ∧ b.pc t = .idle then
        c.collected + (b.result t).toNat else c.collected := by
  have stepped : Collected.next r c (.step t) = some (c.note r b (.step t)) := by
    simp [Collected.next, follows.buffers, ran]
  have sound := follows.sound.next (a := .step t) trivial stepped
  have planned := ran
  simp only [Striped.State.next] at planned
  split at planned
  · cases planned
  · rename_i e nx plan
    cases planned
    have access := Striped.State.access_of_plan plan
    refine ⟨_, e, nx, access, rfl, stepped, sound, ?_, ?_, ?_⟩
    all_goals simp only [Collected.note, follows.buffers, plan, Collected.noteStep]

/-- A thread enters a member function of a buffer. -/
theorem enters {a : Striped.Action T R} {pc : Striped.PC R}
    (entry : (∃ this v, a = .add t this v ∧ pc = .addStripes this v) ∨
      (∃ this, a = .value t this ∧ pc = .valueBase this) ∨
      ∃ this, a = .reset t this ∧ pc = .resetBase this)
    (ran : b.next a = some b') :
    b'.pc t = pc ∧ (∀ u, u ≠ t → b'.pc u = b.pc u) ∧ b'.result = b.result := by
  rcases entry with ⟨this, v, rfl, rfl⟩ | ⟨this, rfl, rfl⟩ | ⟨this, rfl, rfl⟩ <;>
    simp only [Striped.State.next] at ran <;> split at ran <;> cases ran <;>
    exact ⟨if_pos rfl, fun u other => if_neg other, rfl⟩

end Buffers

/-! ## Steps of a thread -/

/-- A rule of the tick that does not touch the buffer. -/
theorem Follows.quiet (follows : s.Follows r c) (idle : s.buffers.pc t = .idle)
    (before : s.draining r t = false) (nothing : s.returned r t = 0)
    (buffers : s'.buffers = s.buffers) (counts : s'.counts r = s.counts r) {pc : PC R}
    (pcs : s'.pc = (s.goto t pc).pc)
    (outside : (∀ this caller left, pc ≠ .value this caller left) ∧
      (∀ this caller left x, pc ≠ .reset this caller left x) ∧
      ∀ this caller, pc ≠ .adding this caller) :
    s'.Follows r c := by
  have here : s'.pc t = pc := by rw [pcs, goto_pc_self]
  have idle' : s'.buffers.pc t = .idle := by rw [buffers, idle]
  refine follows.stays buffers counts pcs ?_ before ?_ nothing ?_
  · rw [Calls, here]
    cases pc with
    | value this caller left => exact absurd rfl (outside.1 this caller left)
    | reset this caller left x => exact absurd rfl (outside.2.1 this caller left x)
    | adding this caller => exact absurd rfl (outside.2.2 this caller)
    | _ => exact idle'
  · rw [draining, here]
    cases pc with
    | value this caller left => exact absurd rfl (outside.1 this caller left)
    | reset this caller left x => exact absurd rfl (outside.2.1 this caller left x)
    | _ => rfl
  · rw [returned, here]
    cases pc with
    | value this caller left => exact absurd rfl (outside.1 this caller left)
    | _ => rfl

theorem back_outside (this : R) (caller : Caller R) :
    (∀ this' caller' left, PC.back this caller ≠ .value this' caller' left) ∧
    (∀ this' caller' left x, PC.back this caller ≠ .reset this' caller' left x) ∧
    ∀ this' caller', PC.back this caller ≠ .adding this' caller' := by
  cases caller with
  | update val later => cases later <;> simp [PC.back]
  | rate => simp [PC.back]

/-- `c` is followed by `c'` in no more than one action of the buffers. -/
def Onward (r : R) (c c' : Collected T R) : Prop :=
  c' = c ∨ ∃ a, Collected.next r c a = some c'

theorem Follows.add (follows : s.Follows r c) (orderly : Orderly r s (.step t)) {this : R}
    {val : Word} {later : List R} (atPc : s.pc t = .add this val later)
    {b : Striped.State T R} (ran : s.buffers.next (.add t this val) = some b) :
    ∃ c', Onward r c c' ∧
      ({ s with buffers := b }.goto t (.adding this (.update val later))).Follows r c' := by
  obtain ⟨here, others, results⟩ := enters (.inl ⟨this, val, rfl, rfl⟩) ran
  have stepped : Collected.next r c (.add t this val) = some { c with state := b } := by
    simp [Collected.next, follows.buffers, ran, Collected.note]
  have sound : Collected.Sound r { c with state := b } :=
    follows.sound.next (a := .add t this val)
      (by rw [Orderly, atPc] at orderly; rw [Collected.Orderly, follows.buffers]; exact orderly)
      stepped
  refine ⟨_, .inr ⟨_, stepped⟩, follows.step (t := t) rfl sound (fun u other => goto_pc_other other)
    (fun u other => others u other) (fun u _ => congrFun results u) ?_ ?_ (fun u _ => Iff.rfl)
    follows.counted ?_⟩
  · rw [Calls, goto_pc_self]
    intro r'
    show Striped.State.Apart r' (b.pc t)
    rw [here]
    exact ⟨by simp [Striped.PC.reading], by simp [Striped.PC.resetting]⟩
  · rw [follows.turn t]
    simp [draining, atPc]
  · simp [returned, atPc, goto]

theorem Follows.adding (follows : s.Follows r c) {this : R} {caller : Caller R}
    (atPc : s.pc t = .adding this caller) {b : Striped.State T R}
    (ran : s.buffers.next (.step t) = some b) :
    ∃ c', Onward r c c' ∧ ({ s with buffers := b }.goto t (.adding this caller)).Follows r c' := by
  have calls := follows.calls t
  rw [Calls, atPc] at calls
  obtain ⟨c', e, nx, access, rfl, stepped, sound, state, turn, collected⟩ := follows.buffer ran
  rw [if_neg fun both => (calls r).resetting both.1] at turn
  rw [if_neg fun both => (calls r).reading both.1] at collected
  refine ⟨c', .inr ⟨_, stepped⟩, follows.step (t := t) state sound
    (fun u other => goto_pc_other other) (fun u other => Striped.State.after_pc_other other)
    (fun u other => Striped.State.after_result_other other) ?_ ?_ (fun u _ => by rw [turn])
    follows.counted ?_⟩
  · rw [Calls, goto_pc_self]
    intro r'
    show Striped.State.Apart r' ((s.buffers.after t e nx).pc t)
    rw [Striped.State.after_pc_self]
    exact Striped.State.access_apart access (calls r')
  · rw [turn, follows.turn t]
    simp [draining, atPc]
  · simp [returned, atPc, goto, collected]

theorem Follows.tick (follows : s.Follows r c) (orderly : Orderly r s (.step t)) {this : R}
    {caller : Caller R} {left : Nat} (atPc : s.pc t = .tick this caller (left + 1))
    {b : Striped.State T R} (ran : s.buffers.next (.value t this) = some b) :
    ∃ c', Onward r c c' ∧
      ({ s with buffers := b }.goto t (.value this caller left)).Follows r c' := by
  obtain ⟨here, others, results⟩ := enters (.inr (.inl ⟨this, rfl, rfl⟩)) ran
  have free : this = r → c.turn = none := by
    intro mine
    rw [Orderly, atPc] at orderly
    refine Option.eq_none_iff_forall_ne_some.2 fun u its => ?_
    rw [follows.turn u, orderly mine u] at its
    cases its
  have stepped : Collected.next r c (.value t this) =
      some { c with state := b, turn := if this = r then some t else c.turn } := by
    simp [Collected.next, follows.buffers, ran, Collected.note]
  have sound := follows.sound.next (a := .value t this) free stepped
  refine ⟨_, .inr ⟨_, stepped⟩, follows.step (t := t) rfl sound (fun u other => goto_pc_other other)
    (fun u other => others u other) (fun u _ => congrFun results u) ?_ ?_ (fun u other => ?_)
    follows.counted ?_⟩
  · rw [Calls, goto_pc_self]
    exact .inr (by rw [show (_ : Averages T R).buffers.pc t = _ from here]; rfl)
  · rw [draining, goto_pc_self]
    by_cases mine : this = r
    · simp [mine]
    · have before := follows.turn t
      simp only [draining, atPc] at before
      simpa [mine] using before
  · by_cases mine : this = r
    · simp [mine, Ne.symm other, free mine]
    · simp [mine]
  · simp [returned, atPc, goto, here]

theorem Follows.value (follows : s.Follows r c) {this : R} {caller : Caller R} {left : Nat}
    (atPc : s.pc t = .value this caller left) {b : Striped.State T R}
    (ran : s.buffers.next (.step t) = some b) (busy : s.buffers.pc t ≠ .idle) :
    ∃ c', Onward r c c' ∧
      ({ s with buffers := b }.goto t (.value this caller left)).Follows r c' := by
  have calls := follows.calls t
  rw [Calls, atPc] at calls
  have reading := calls.resolve_left busy
  obtain ⟨c', e, nx, access, rfl, stepped, sound, state, turn, collected⟩ := follows.buffer ran
  rw [if_neg (by rw [Striped.PC.resetting_of_reading reading]; simp)] at turn
  refine ⟨c', .inr ⟨_, stepped⟩, follows.step (t := t) state sound
    (fun u other => goto_pc_other other) (fun u other => Striped.State.after_pc_other other)
    (fun u other => Striped.State.after_result_other other) ?_ ?_ (fun u _ => by rw [turn])
    follows.counted ?_⟩
  · rw [Calls, goto_pc_self]
    show (s.buffers.after t e nx).pc t = .idle ∨ ((s.buffers.after t e nx).pc t).reading = some this
    rw [Striped.State.after_pc_self]
    exact access_value access reading
  · rw [turn, follows.turn t]
    simp [draining, atPc]
  · simp only [returned, atPc, goto_pc_self, reading, Option.some.injEq, busy, and_false, if_false]
      at collected ⊢
    rw [collected]
    by_cases finished : this = r ∧ (s.buffers.after t e nx).pc t = .idle
    · simp only [goto, finished, and_self, if_true]
      push_cast
      omega
    · simp [goto, finished]

theorem Follows.valued (follows : s.Follows r c) {this : R} {caller : Caller R} {left : Nat}
    (atPc : s.pc t = .value this caller left) {b : Striped.State T R}
    (ran : s.buffers.next (.reset t this) = some b) (idle : s.buffers.pc t = .idle) :
    ∃ c', Onward r c c' ∧
      ({ s with
        counts := Function.update s.counts this
          (s.counts this ++ [(s.buffers.result t).toInt])
        buffers := b }.goto t
        (.reset this caller left (((s.buffers.result t).toInt : ℚ) / kInterval))).Follows r c' := by
  obtain ⟨here, others, results⟩ := enters (.inr (.inr ⟨this, rfl, rfl⟩)) ran
  have mine : this = r → c.turn = some t := fun same => by
    rw [follows.turn t]
    simpa [draining, atPc] using same
  have stepped : Collected.next r c (.reset t this) = some { c with state := b } := by
    simp [Collected.next, follows.buffers, ran, Collected.note]
  have sound := follows.sound.next (a := .reset t this) mine stepped
  -- the sum is below 2^63, so what was read is not negative
  have read : this = r → (s.buffers.result t).toInt = (s.buffers.result t).toNat := by
    intro same
    have gives : s.returned r t = (s.buffers.result t).toNat := by
      simp [returned, atPc, same, idle]
    have part : s.returned r t ≤ ∑ u, s.returned r u :=
      Finset.single_le_sum (fun u _ => Nat.zero_le _) (Finset.mem_univ t)
    have total := follows.collected
    have counted := follows.counted
    have bound := follows.sound.bounds.1
    have started := Striped.swapped_le_started c.state.log r
    have small := follows.sound.kept.small
    exact BitVec.toInt_eq_toNat_of_lt (by omega)
  have counts : ((Function.update s.counts this
      (s.counts this ++ [(s.buffers.result t).toInt])) r).sum =
        (s.counts r).sum + s.returned r t := by
    by_cases same : this = r
    · subst same
      simp [returned, atPc, idle, read rfl]
    · simp [returned, atPc, same, Function.update_of_ne (Ne.symm same)]
  refine ⟨_, .inr ⟨_, stepped⟩, follows.step (t := t) rfl sound (fun u other => goto_pc_other other)
    (fun u other => others u other) (fun u _ => congrFun results u) ?_ ?_ (fun u _ => Iff.rfl)
    ?_ ?_⟩
  · rw [Calls, goto_pc_self]
    exact .inr (by rw [show (_ : Averages T R).buffers.pc t = _ from here]; rfl)
  · rw [follows.turn t, draining, draining, goto_pc_self, atPc]
    simp [goto, here]
  · have counted := follows.counted
    simp only [goto, counts]
    omega
  · simp only [goto, counts]
    simp [returned]
    omega

theorem Follows.reset (follows : s.Follows r c) {this : R} {caller : Caller R} {left : Nat}
    {x : ℚ} (atPc : s.pc t = .reset this caller left x) {b : Striped.State T R}
    (ran : s.buffers.next (.step t) = some b) (busy : s.buffers.pc t ≠ .idle) :
    ∃ c', Onward r c c' ∧
      ({ s with buffers := b }.goto t (.reset this caller left x)).Follows r c' := by
  have calls := follows.calls t
  rw [Calls, atPc] at calls
  have resetting := calls.resolve_left busy
  obtain ⟨c', e, nx, access, rfl, stepped, sound, state, turn, collected⟩ := follows.buffer ran
  have notReading : (s.buffers.pc t).reading ≠ some r := fun reading => by
    rw [Striped.PC.resetting_of_reading reading] at resetting
    cases resetting
  rw [if_neg fun both => notReading both.1] at collected
  have mine : this = r → c.turn = some t := fun same => by
    rw [follows.turn t]
    simp [draining, atPc, same, busy]
  refine ⟨c', .inr ⟨_, stepped⟩, follows.step (t := t) state sound
    (fun u other => goto_pc_other other) (fun u other => Striped.State.after_pc_other other)
    (fun u other => Striped.State.after_result_other other) ?_ ?_ (fun u other => ?_)
    follows.counted ?_⟩
  · rw [Calls, goto_pc_self]
    show (s.buffers.after t e nx).pc t = .idle ∨
      ((s.buffers.after t e nx).pc t).resetting = some this
    rw [Striped.State.after_pc_self]
    exact access_reset access resetting
  · rw [turn, resetting, draining, goto_pc_self]
    by_cases same : this = r
    · simp only [same, mine same, goto, true_and]
      split <;> simp_all
    · have before := follows.turn t
      simp only [draining, atPc] at before
      simpa [same] using before
  · rw [turn, resetting]
    by_cases same : this = r
    · simp only [same, mine same, true_and]
      split <;> simp [Ne.symm other]
    · simp [same]
  · simp [returned, atPc, goto, collected]

theorem Follows.rule (follows : s.Follows r c) (orderly : Orderly r s (.step t))
    (rule : s.Rule t (s.pc t) s') : ∃ c', Onward r c c' ∧ s'.Follows r c' := by
  have calls := follows.calls t
  have quiet := @Follows.quiet _ _ _ _ _ s s' c t r follows
  obtain ⟨pc, atPc⟩ : ∃ pc, s.pc t = pc := ⟨_, rfl⟩
  rw [Calls, atPc] at calls
  rw [atPc] at rule
  cases rule
  case early this caller now | beaten this caller now prev | ticked this caller =>
      exact ⟨c, .inl rfl, quiet calls (by simp [draining, atPc]) (by simp [returned, atPc]) rfl rfl
        rfl (back_outside this caller)⟩
  case add this val later b ran => exact follows.add orderly atPc ran
  case adding this caller b ran busy => exact follows.adding atPc ran
  case tick this caller left b ran => exact follows.tick orderly atPc ran
  case value this caller left b ran busy => exact follows.value atPc ran busy
  case valued this caller left b ran idle => exact follows.valued atPc ran idle
  case reset this caller left x b ran busy => exact follows.reset atPc ran busy
  case added this caller idle | drained this caller left x idle =>
      exact ⟨c, .inl rfl, quiet idle (by simp [draining, atPc, idle]) (by simp [returned, atPc]) rfl
        rfl rfl (by simp)⟩
  all_goals exact ⟨c, .inl rfl, quiet calls (by simp [draining, atPc]) (by simp [returned, atPc])
    rfl rfl rfl (by simp)⟩

/-! ## Every run -/

/-- The deltas that are added while a tick of `r` is between reading the buffer and resetting it. -/
def missed (r : R) : Averages T R → List (Action T R) → Nat
  | _, [] => 0
  | s, a :: rest =>
      match s.next a with
      | some s' =>
          (if ∃ u, s.draining r u = true then
            Striped.swapped s'.buffers.log r - Striped.swapped s.buffers.log r else 0) +
          missed r s' rest
      | none => 0

theorem follows_new (hashCode : T → Word) (r : R) :
    (new hashCode : Averages T R).Follows r (Collected.init hashCode) where
  buffers := rfl
  sound := Collected.sound_init hashCode
  calls _ := rfl
  turn _ := by simp [Collected.init, draining, new]
  counted := Int.le_refl 0
  collected := by simp [Collected.init, returned, new]

/-- No thread moves, and the calls in the buffers stay. -/
theorem Follows.buffers_only (follows : s.Follows r c) {b : Striped.State T R}
    (sound : Collected.Sound r { c with state := b }) (pcs : b.pc = s.buffers.pc)
    (results : b.result = s.buffers.result) (buffers : s'.buffers = b) (stay : s'.pc = s.pc)
    (counts : s'.counts = s.counts) : s'.Follows r { c with state := b } where
  buffers := buffers.symm
  sound := sound
  calls u := by
    have calls := follows.calls u
    rw [Calls] at calls ⊢
    rw [stay, buffers, pcs]
    exact calls
  turn u := by
    rw [follows.turn u, draining, draining, stay, buffers, pcs]
  counted := counts ▸ follows.counted
  collected := by
    have same : ∀ u, s'.returned r u = s.returned r u := fun u => by
      rw [returned, returned, stay, buffers, pcs, results]
    simp only [counts, same]
    exact follows.collected

theorem Follows.next (follows : s.Follows r c) {a : Action T R} (orderly : Orderly r s a)
    (taken : s.next a = some s') : ∃ c', Onward r c c' ∧ s'.Follows r c' := by
  cases a with
  | make this alpha =>
      obtain ⟨b, ran, rfl⟩ := Option.map_eq_some_iff.1 taken
      have stepped : Collected.next r c (.make this none) = some { c with state := b } := by
        simp [Collected.next, follows.buffers, ran, Collected.note]
      have made : b.pc = s.buffers.pc ∧ b.result = s.buffers.result := by
        simp only [Striped.State.next] at ran
        split at ran
        · cases ran
        · cases ran
          exact ⟨rfl, rfl⟩
      exact ⟨_, .inr ⟨_, stepped⟩, follows.buffers_only
        (follows.sound.next (a := .make this none) trivial stepped) made.1 made.2 rfl rfl rfl⟩
  | reclaim storage =>
      obtain ⟨b, ran, rfl⟩ := Option.map_eq_some_iff.1 taken
      have stepped : Collected.next r c (.reclaim storage) = some { c with state := b } := by
        simp [Collected.next, follows.buffers, ran, Collected.note]
      have freed : b.pc = s.buffers.pc ∧ b.result = s.buffers.result := by
        simp only [Striped.State.next] at ran
        split at ran
        · cases ran
          exact ⟨rfl, rfl⟩
        · cases ran
      exact ⟨_, .inr ⟨_, stepped⟩, follows.buffers_only
        (follows.sound.next (a := .reclaim storage) trivial stepped) freed.1 freed.2 rfl rfl rfl⟩
  | update t this later val =>
      simp only [Averages.next] at taken
      split at taken
      · rename_i enabled
        cases taken
        have calls := follows.calls t
        rw [Calls, enabled.1] at calls
        exact ⟨c, .inl rfl, follows.quiet calls (by simp [draining, enabled.1])
          (by simp [returned, enabled.1]) rfl rfl rfl (by simp)⟩
      · cases taken
  | rate t this =>
      simp only [Averages.next] at taken
      split at taken
      · rename_i enabled
        cases taken
        have calls := follows.calls t
        rw [Calls, enabled.1] at calls
        exact ⟨c, .inl rfl, follows.quiet calls (by simp [draining, enabled.1])
          (by simp [returned, enabled.1]) rfl rfl rfl (by simp)⟩
      · cases taken
  | step t => exact follows.rule orderly (rule_of_step taken)
  | spurious t =>
      simp only [Averages.next] at taken
      split at taken
      · rename_i this caller left x expected atPc
        cases taken
        have calls := follows.calls t
        rw [Calls, atPc] at calls
        exact ⟨c, .inl rfl, follows.quiet calls (by simp [draining, atPc])
          (by simp [returned, atPc]) rfl rfl rfl (by simp)⟩
      · cases taken
  | wait duration =>
      cases taken
      obtain ⟨buffers, sound, calls, turn, counted, collected⟩ := follows
      exact ⟨c, .inl rfl, buffers, sound, calls, turn, counted, collected⟩

/-- Somebody has the turn exactly if some thread is draining. -/
theorem Follows.turn_isSome (follows : s.Follows r c) :
    c.turn.isSome = true ↔ ∃ u, s.draining r u = true := by
  rw [Option.isSome_iff_exists]
  exact exists_congr follows.turn

theorem Follows.during (follows : s.Follows r c) (follows' : s'.Follows r c')
    (onward : Onward r c c') : c'.during = c.during +
      if ∃ u, s.draining r u = true then
        Striped.swapped s'.buffers.log r - Striped.swapped s.buffers.log r else 0 := by
  simp only [← follows.turn_isSome, ← follows.buffers, ← follows'.buffers]
  rcases onward with rfl | ⟨a, taken⟩
  · simp
  · exact follows.sound.during_next taken

theorem Follows.run {as : List (Action T R)} (follows : s.Follows r c)
    (orderly : Theory.Along Averages.next (Orderly r) s as)
    (ran : Theory.run Averages.next s as = some s') :
    ∃ c', s'.Follows r c' ∧ c'.during = c.during + missed r s as := by
  induction as generalizing s c with
  | nil =>
      cases ran
      exact ⟨c, follows, rfl⟩
  | cons a rest ih =>
      obtain ⟨mid, taken, ran⟩ := Theory.run_cons_eq_some.1 ran
      obtain ⟨c₁, onward, follows₁⟩ := follows.next orderly.1 taken
      obtain ⟨c₂, follows₂, later⟩ := ih follows₁ (orderly.2 mid taken) ran
      refine ⟨c₂, follows₂, ?_⟩
      rw [later, follows.during follows₁ onward]
      simp only [missed, taken]
      exact Nat.add_assoc ..

/-- **Every event is counted by one tick at most.** Take any run from a fresh system: any number of
averages, calls of `update`, `mark` and `rate` by any threads, and the steps of all of them in any
order, where the deltas of an average are not negative and stay below 2^63 in total, and where no
two of its ticks are at the buffer at the same time. Then

* what its ticks have taken never adds up to more than has been added;
* whenever no tick is at the buffer, this and what is in the buffer is at most what has been added,
  and what is missing has been added while some tick was between reading the buffer and resetting
  it. -/
theorem counted_once {hashCode : T → Word} {as : List (Action T R)}
    (ran : Theory.run next (new hashCode) as = some s)
    (orderly : Theory.Along next (Orderly r) (new hashCode) as) :
    (s.counts r).sum ≤ Striped.swapped s.buffers.log r ∧
    ((∀ t, s.draining r t = false) →
      (s.counts r).sum + s.buffers.content r ≤ Striped.swapped s.buffers.log r ∧
      Striped.swapped s.buffers.log r ≤
        (s.counts r).sum + s.buffers.content r + missed r (new hashCode) as) := by
  obtain ⟨c, follows, during⟩ := (follows_new hashCode r).run orderly ran
  obtain ⟨most, between⟩ := follows.sound.bounds
  have collected := follows.collected
  rw [follows.buffers] at most between
  refine ⟨by omega, fun quiet => ?_⟩
  have free : c.turn = none := Option.eq_none_iff_forall_ne_some.2 fun u its => by
    rw [follows.turn u, quiet u] at its
    cases its
  -- a thread that has read the buffer and not reset it is draining
  have nothing : ∑ u, s.returned r u = 0 := Finset.sum_eq_zero fun u _ => by
    have idle := quiet u
    simp only [draining] at idle
    simp only [returned]
    split
    · rename_i atPc
      rw [atPc] at idle
      exact if_neg fun both => of_decide_eq_false idle both.1
    · rfl
  obtain ⟨least, greatest⟩ := between free
  have start : c.during = missed r (new hashCode) as := by
    rw [during]
    exact Nat.zero_add _
  rw [nothing] at collected
  omega

/-- Thread 0 records 5. Five seconds later it reads the buffer in a tick, and before it resets it
thread 1 records 7. -/
def tickBeside : List (Action (Fin 2) Unit) :=
  Action.make () (1 / 2) :: .update 0 () [] 5 :: List.replicate 7 (.step 0) ++
    Action.wait 5000000 :: .rate 0 () :: List.replicate 6 (.step 0) ++
      Action.update 1 () [] 7 :: List.replicate 4 (.step 1) ++ List.replicate 11 (Action.step 0)

/-- The 7 is lost. -/
theorem counted_once_beside : ∃ s : Averages (Fin 2) Unit,
    Theory.run next (new fun _ => 0) tickBeside = some s ∧
    (s.counts (), Striped.swapped s.buffers.log (), missed () (new fun _ => 0) tickBeside) =
      ([5], 12, 7) ∧
    ((s.counts ()).sum + s.buffers.content () ≤ 12 ∧
      12 ≤ (s.counts ()).sum + s.buffers.content () + 7) := by
  have played : (Theory.run next (new fun _ => 0 : Averages (Fin 2) Unit) tickBeside).map
      (fun s => (s.counts (), Striped.swapped s.buffers.log (),
        decide (∀ t, s.draining () t = false))) = some ([5], 12, true) := by
    decide +kernel
  have lost : missed () (new fun _ => 0 : Averages (Fin 2) Unit) tickBeside = 7 := by
    decide +kernel
  have orderly : Theory.Along next (Orderly ()) (new fun _ => 0 : Averages (Fin 2) Unit)
      tickBeside := by
    decide +kernel
  obtain ⟨s, ran, left⟩ := Option.map_eq_some_iff.1 played
  simp only [Prod.mk.injEq, decide_eq_true_eq] at left
  obtain ⟨counts, swaps, quiet⟩ := left
  have bounds := (counted_once ran orderly).2 quiet
  rw [swaps, lost] at bounds
  exact ⟨s, ran, by rw [counts, swaps, lost], bounds⟩

/-- Thread 0 records 5 and stops in its tick before it resets the buffer. Five seconds later thread
1 makes the next tick. -/
def tickTwice : List (Action (Fin 2) Unit) :=
  Action.make () (1 / 2) :: .update 0 () [] 5 :: List.replicate 7 (.step 0) ++
    Action.wait 5000000 :: .rate 0 () :: List.replicate 6 (.step 0) ++
      Action.wait 5000000 :: .rate 1 () :: List.replicate 17 (.step 1) ++
        List.replicate 11 (Action.step 0)

/-- The 5 is counted twice. -/
theorem counted_twice :
    (Theory.run next (new fun _ => 0 : Averages (Fin 2) Unit) tickTwice).map
      (fun s => (s.counts (), Striped.started s.buffers.log ())) = some ([5, 5], 5) := by
  decide +kernel

end Averages

end Ccmetrics.Meter
