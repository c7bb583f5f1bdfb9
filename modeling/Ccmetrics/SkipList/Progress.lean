/-
# SkipList.Progress -- calls that are finished by a thread running alone

Whatever state the other threads have been stopped in, `insert`, `erase`, `find`, `exists` and
`firstKey` return when their thread runs alone, from any point inside them. A `find` starts again
at most once because of what it had read before; `insert` searches again if it has unlinked a dead
node or had read something before, and there are finitely many dead nodes on the chain.

`values` and `entries` do not unlink; the next module is about them.
-/
import Ccmetrics.SkipList.Parts

namespace Ccmetrics.SkipList

set_option autoImplicit false
set_option linter.unusedSectionVars false

variable {T Key Value : Type} [DecidableEq T] [LinearOrder Key] [Inhabited Key] [Inhabited Value]

namespace State

open Theory (Leads)

variable {s s' q : State T Key Value} {t : T} {e : Effect Key Value} {nx : Next Key Value}
variable {Q : State T Key Value → Prop} {pc : PC Key Value}

/-- The thread's call returns if it runs alone. -/
def Finishes (s : State T Key Value) (t : T) : Prop :=
  Leads (fun s => s.step t) s fun s' => (s'.pc t).isIdle = true

theorem Ends.finishes {r : Result Key Value} (ends : s.Ends t r) : s.Finishes t :=
  Leads.imp ends fun _ after => after.2.2.1

/-! ## Dead nodes -/

/-- The dead nodes that are still on the chain. -/
def deads (s : State T Key Value) : Finset Addr := s.chain.toFinset.filter fun a => s.dead a = true

theorem mem_deads {a : Addr} : a ∈ s.deads ↔ a ∈ s.chain ∧ s.dead a = true := by
  unfold deads
  rw [Finset.mem_filter, List.mem_toFinset]

theorem Alike.deads (alike : s.Alike s') : s'.deads = s.deads := by
  ext a
  rw [mem_deads, mem_deads, alike.chain]
  constructor
  · rintro ⟨member, isDead⟩
    exact ⟨member, alike.dead a member ▸ isDead⟩
  · rintro ⟨member, isDead⟩
    exact ⟨member, (alike.dead a member).trans isDead⟩

/-- `find` unlinks a dead node when it gives up. -/
theorem Unlinked.deads {c : Addr} (unlinked : s.Unlinked s' c) :
    s'.deads.card < s.deads.card := by
  refine Finset.card_lt_card ⟨fun a member => ?_, fun all => ?_⟩
  · rw [mem_deads, unlinked.chain, unlinked.dead] at member
    exact mem_deads.2 ⟨member.1.1, member.2⟩
  · have inside := all (mem_deads.2 ⟨unlinked.member, unlinked.wasDead⟩)
    rw [mem_deads, unlinked.chain] at inside
    exact inside.1.2 rfl

/-! ## `insert` -/

/-- A search of `insert` for the place of a node that it has created. -/
theorem Ready.again_finishes {k : Key} {n : Addr} {level : Nat} (ready : s.Ready t)
    (at_ : s.pc t = .findHead ⟨k, .insertAgain n level⟩) : s.Finishes t := by
  induction count : s.deads.card using Nat.strong_induction_on generalizing s with
  | _ count ih =>
      subst count
      refine (ready.finds at_).bind ?_
      rintro s₁ ⟨ready₁, prev, cur, at₁, landed⟩
      have goes := ready₁.matched at₁
      cases hit : s₁.meets k cur with
      | true =>
          rw [hit] at goes
          exact ready₁.reads goes fun s₂ ready₂ _ at₂ => (ready₂.clears at₂).finishes
      | false =>
          rw [hit] at goes
          refine ready₁.reads goes fun s₂ ready₂ same₂ at₂ => ?_
          refine (ready₂.stores at₂).bind ?_
          rintro s₃ ⟨ready₃, alike₃, at₃⟩
          by_cases points : (s₃.node prev).next 0 = cur
          · exact (ready₃.links at₃ points).imp fun _ after => after.2.2.1
          · have goes₃ : s₃.solo t =
                some (.none, .goto (s₃.enter t (.find ⟨k, .insertAgain n level⟩))) := by
              rw [solo_plan at₃ rfl]
              exact if_neg points
            refine ready₃.reads goes₃ fun s₄ ready₄ same₄ at₄ => ?_
            refine ready₄.enters at₄ fun s₅ ready₅ same₅ at₅ => ?_
            have alike : s₁.Alike s₅ := same₂.alike.trans (alike₃.trans (same₄.trans same₅).alike)
            refine ih s₅.deads.card ?_ ready₅ at₅ rfl
            rw [alike.deads]
            rcases landed with ⟨-, next₁, -⟩ | ⟨-, c, unlinked⟩
            · -- the exchange cannot fail where `find` has unlinked nothing
              have here₁ := ready₁.reached.level0.here t
              rw [at₁] at here₁
              obtain ⟨-, before, shared, -⟩ := here₁
              have alive : s₁.dead prev = false := alive_of_next next₁ shared.alive
              have next₃ := (same₂.alike.trans alike₃).next ready₁.reached.level0.memory
                ready₃.reached.level0.memory before.1 alive
              exact absurd (next₃.trans next₁) points
            · exact unlinked.deads

theorem Ready.link_finishes {k : Key} {level : Nat} {n prev : Addr} {cur : Ptr} (ready : s.Ready t)
    (at_ : s.pc t = .insertLink k level n prev cur) : s.Finishes t := by
  by_cases points : (s.node prev).next 0 = cur
  · exact (ready.links at_ points).imp fun _ after => after.2.2.1
  · have goes : s.solo t =
        some (.none, .goto (s.enter t (.find ⟨k, .insertAgain n level⟩))) := by
      rw [solo_plan at_ rfl]
      exact if_neg points
    refine ready.reads goes fun s₁ ready₁ _ at₁ => ?_
    refine ready₁.enters at₁ fun s₂ ready₂ _ at₂ => ?_
    exact ready₂.again_finishes at₂

theorem Ready.store_finishes {k : Key} {level : Nat} {n prev : Addr} {cur : Ptr} (ready : s.Ready t)
    (at_ : s.pc t = .insertStore k level n prev cur) : s.Finishes t :=
  (ready.stores at_).bind fun _ ⟨ready₁, _, at₁⟩ => ready₁.link_finishes at₁

theorem Ready.count_finishes {k : Key} {level : Nat} {n prev : Addr} {cur : Ptr} (ready : s.Ready t)
    (at_ : s.pc t = .insertCount k level n prev cur) : s.Finishes t :=
  ready.goes (solo_plan at_ rfl) fun _ ready₁ stepped => ready₁.store_finishes stepped.pc

theorem Ready.hazard_finishes {k : Key} {level : Nat} {n prev : Addr} {cur : Ptr}
    (ready : s.Ready t) (at_ : s.pc t = .insertHazard k level n prev cur) : s.Finishes t :=
  ready.reads (solo_call at_ rfl) fun _ ready₁ _ at₁ => ready₁.count_finishes at₁

/-! ## Every caller of `find(key)` -/

theorem Ready.match_finishes {f : Find Key Value} {prev : Addr} {cur : Ptr} (ready : s.Ready t)
    (at_ : s.pc t = .findMatch f prev cur) : s.Finishes t := by
  have goes := ready.matched at_
  obtain ⟨k, site⟩ := f
  cases site with
  | exists_ => exact (ready.match_exists at_).finishes
  | find => exact (ready.match_find at_).finishes
  | eraseAgain c m => exact (ready.match_again at_).finishes
  | erase =>
      cases hit : s.meets k cur with
      | false =>
          rw [hit] at goes
          exact (ready.leaves goes).finishes
      | true =>
          rw [hit] at goes
          cases cur with
          | node c =>
              refine ready.reads goes fun s₁ ready₁ _ at₁ => ?_
              refine (ready₁.erases at₁).bind ?_
              rintro s₂ ⟨ready₂, -, at₂⟩
              refine (ready₂.finds at₂).bind ?_
              rintro s₃ ⟨ready₃, prev', cur', at₃, -⟩
              exact (ready₃.match_again at₃).finishes
          | _ => cases hit
  | insert value level =>
      cases hit : s.meets k cur with
      | true =>
          rw [hit] at goes
          exact (ready.leaves goes).finishes
      | false =>
          rw [hit] at goes
          exact ready.goes goes fun _ ready₁ stepped => ready₁.hazard_finishes stepped.pc
  | insertAgain n level =>
      cases hit : s.meets k cur with
      | true =>
          rw [hit] at goes
          exact ready.reads goes fun _ ready₁ _ at₁ => (ready₁.clears at₁).finishes
      | false =>
          rw [hit] at goes
          exact ready.reads goes fun _ ready₁ _ at₁ => ready₁.store_finishes at₁

theorem Ready.head_finishes {f : Find Key Value} (ready : s.Ready t)
    (at_ : s.pc t = .findHead f) : s.Finishes t := by
  refine (ready.finds at_).bind ?_
  rintro s₁ ⟨ready₁, prev, cur, at₁, -⟩
  exact ready₁.match_finishes at₁

theorem Ready.enter_finishes {f : Find Key Value} (ready : s.Ready t)
    (at_ : s.pc t = q.enter t (.find f)) : s.Finishes t := by
  refine ready.enters at_ fun s₁ ready₁ _ at₁ => ?_
  exact ready₁.head_finishes at₁

/-! ## From inside `find(key)` -/

section Inside

variable {f : Find Key Value} {i : Nat} {prev c : Addr} {cur next : Ptr}

theorem Ready.down_finishes (ready : s.Ready t) (bottom : i = 0)
    (at_ : s.pc t = findDown f i prev cur) : s.Finishes t := by
  subst bottom
  exact ready.match_finishes at_

/-- From a load of `next`: `cur` is still behind `prev`, or `find` starts again. -/
theorem Ready.next_finishes (ready : s.Ready t) (at_ : s.pc t = .findNext f i prev c) :
    s.Finishes t := by
  have memory := ready.reached.level0.memory
  have window := ready.reached.level0.here t
  rw [at_] at window
  obtain ⟨-, rfl, before, -⟩ := window
  by_cases points : (s.node prev).next 0 = .node c
  · have alive : s.dead prev = false := alive_of_next points rfl
    obtain ⟨l₁, l₂, split⟩ := List.append_of_mem (memory.onChain before.1 alive)
    have here : s.pc t = findLoop f 0 prev ((s.node prev).next 0) := by rw [points]; exact at_
    refine (ready.walks here split alive).bind ?_
    rintro s₁ ⟨ready₁, prev', cur', at₁, -⟩
    exact ready₁.match_finishes at₁
  · refine ready.reads (solo_call at_ rfl) fun s₁ ready₁ same₁ at₁ => ?_
    have goes : s₁.solo t = some (.none, .goto (.findHead f)) := by
      rw [solo_plan at₁ rfl]
      refine if_pos ?_
      rw [same₁.nodes.node]
      exact points
    exact ready₁.reads goes fun _ ready₂ _ at₂ => ready₂.head_finishes at₂

theorem Ready.loop_finishes (ready : s.Ready t) (bottom : i = 0) (shared : s.Shared cur)
    (at_ : s.pc t = findLoop f i prev cur) : s.Finishes t := by
  cases cur with
  | null => exact ready.down_finishes bottom at_
  | node c => exact ready.next_finishes at_
  | markedNull | marked c => exact shared.elim

theorem Ready.setCur_finishes (ready : s.Ready t) (at_ : s.pc t = .findSetCur f i prev cur) :
    s.Finishes t := by
  have here := ready.reached.level0.here t
  rw [at_] at here
  obtain ⟨-, bottom, -, shared⟩ := here
  refine ready.reads (solo_call at_ rfl) fun s₁ ready₁ same₁ at₁ => ?_
  exact ready₁.loop_finishes bottom
    (shared.extend ready.reached.level0.memory same₁.nodes.extends) at₁

theorem Ready.setPrev_finishes (ready : s.Ready t) (at_ : s.pc t = .findSetPrev f i prev next) :
    s.Finishes t :=
  ready.reads (solo_call at_ rfl) fun _ ready₁ _ at₁ => ready₁.setCur_finishes at₁

theorem Ready.key_finishes (ready : s.Ready t) (at_ : s.pc t = .findKey f i prev c next) :
    s.Finishes t := by
  have here := ready.reached.level0.here t
  rw [at_] at here
  have goes : s.solo t = s.plan t (.findKey f i prev c next) := solo_plan at_ rfl
  simp only [plan] at goes
  split at goes
  · exact ready.reads goes fun _ ready₁ _ at₁ => ready₁.down_finishes here.1.bottom at₁
  · exact ready.reads goes fun _ ready₁ _ at₁ => ready₁.setPrev_finishes at₁

theorem Ready.retire_finishes (ready : s.Ready t) (at_ : s.pc t = .findRetire f i prev c) :
    s.Finishes t := by
  have here := ready.reached.level0.here t
  rw [at_] at here
  exact ready.reads (solo_call at_ rfl) fun _ ready₁ _ at₁ =>
    ready₁.down_finishes here.1.bottom at₁

theorem Ready.clear_finishes (ready : s.Ready t) (at_ : s.pc t = .findClear f i prev c) :
    s.Finishes t :=
  ready.reads (solo_call at_ rfl) fun _ ready₁ _ at₁ => ready₁.retire_finishes at₁

theorem Ready.drop_finishes (ready : s.Ready t) (at_ : s.pc t = .findDrop f i prev c) :
    s.Finishes t := by
  have here := ready.reached.level0.here t
  rw [at_] at here
  have goes : s.solo t = s.plan t (.findDrop f i prev c) := solo_plan at_ rfl
  simp only [plan] at goes
  split at goes
  · exact ready.goes goes fun _ ready₁ stepped => ready₁.clear_finishes stepped.pc
  · exact ready.goes goes fun _ ready₁ stepped =>
      ready₁.down_finishes here.1.bottom stepped.pc

theorem Ready.unlink_finishes (ready : s.Ready t) (at_ : s.pc t = .findUnlink f i prev c next) :
    s.Finishes t := by
  have goes : s.solo t = s.plan t (.findUnlink f i prev c next) := solo_plan at_ rfl
  simp only [plan] at goes
  split at goes
  · exact ready.goes goes fun _ ready₁ stepped => ready₁.drop_finishes stepped.pc
  · exact ready.reads goes fun _ ready₁ _ at₁ => ready₁.head_finishes at₁

theorem Ready.nexti_finishes (ready : s.Ready t) (at_ : s.pc t = .findNexti f i prev c) :
    s.Finishes t :=
  ready.reads (solo_plan at_ rfl) fun _ ready₁ _ at₁ => ready₁.unlink_finishes at₁

theorem Ready.dead_finishes (ready : s.Ready t) (at_ : s.pc t = .findDead f i prev c next) :
    s.Finishes t := by
  have goes : s.solo t = s.plan t (.findDead f i prev c next) := solo_plan at_ rfl
  simp only [plan] at goes
  split at goes
  · exact ready.reads goes fun _ ready₁ _ at₁ => ready₁.nexti_finishes at₁
  · exact ready.reads goes fun _ ready₁ _ at₁ => ready₁.key_finishes at₁

theorem Ready.prev_finishes (ready : s.Ready t) (at_ : s.pc t = .findPrev f i prev c next) :
    s.Finishes t := by
  have goes : s.solo t = s.plan t (.findPrev f i prev c next) := solo_plan at_ rfl
  simp only [plan] at goes
  split at goes
  · exact ready.reads goes fun _ ready₁ _ at₁ => ready₁.head_finishes at₁
  · split at goes
    · exact ready.reads goes fun _ ready₁ _ at₁ => ready₁.nexti_finishes at₁
    · exact ready.reads goes fun _ ready₁ _ at₁ => ready₁.dead_finishes at₁

theorem Ready.cur_finishes (ready : s.Ready t) (at_ : s.pc t = .findCur f i prev) :
    s.Finishes t := by
  have here := ready.reached.level0.here t
  rw [at_] at here
  obtain ⟨-, -, atHead⟩ := here
  by_cases bottom : i = 0
  · subst bottom
    have goes : s.solo t = some (.none, if (s.cell (prev, 0)).isMarked 0 then .goto (.findHead f)
        else .goto (findLoop f 0 prev (s.cell (prev, 0)))) := solo_call at_ rfl
    split at goes
    · exact ready.reads goes fun _ ready₁ _ at₁ => ready₁.head_finishes at₁
    · rename_i clean
      refine ready.reads goes fun s₁ ready₁ _ at₁ => ?_
      cases points : s.cell (prev, 0) with
      | null =>
          rw [points] at at₁
          exact ready₁.match_finishes at₁
      | node c =>
          rw [points] at at₁
          exact ready₁.next_finishes at₁
      | markedNull | marked c =>
          rw [points] at clean
          exact absurd rfl clean
  · rw [atHead bottom] at at_
    refine (ready.descends at_).bind ?_
    rintro s₁ ⟨ready₁, prev', cur', at₁, -⟩
    exact ready₁.match_finishes at₁

/-- From any point of a call of `find(key)`. -/
theorem Ready.finding_finishes (ready : s.Ready t) (finding : (s.pc t).finding = some f) :
    s.Finishes t := by
  cases at_ : s.pc t with
  | acquire start =>
      rw [at_] at finding
      cases start with
      | find f => exact ready.reads (solo_call at_ rfl) fun _ ready₁ _ at₁ => ready₁.head_finishes at₁
      | first => cases finding
      | items what => cases finding
  | findHead f => exact ready.head_finishes at_
  | findHeight f => exact ready.reads (solo_plan at_ rfl) fun _ ready₁ _ at₁ => ready₁.cur_finishes at₁
  | findCur f i prev => exact ready.cur_finishes at_
  | findNext f i prev c => exact ready.next_finishes at_
  | findPrev f i prev c next => exact ready.prev_finishes at_
  | findDead f i prev c next => exact ready.dead_finishes at_
  | findKey f i prev c next => exact ready.key_finishes at_
  | findSetPrev f i prev next => exact ready.setPrev_finishes at_
  | findSetCur f i prev cur => exact ready.setCur_finishes at_
  | findNexti f i prev c => exact ready.nexti_finishes at_
  | findUnlink f i prev c nexti => exact ready.unlink_finishes at_
  | findDrop f i prev c => exact ready.drop_finishes at_
  | findClear f i prev c => exact ready.clear_finishes at_
  | findRetire f i prev c => exact ready.retire_finishes at_
  | findMatch f prev cur => exact ready.match_finishes at_
  | _ =>
      rw [at_] at finding
      cases finding

/-- A load that another thread has interfered with may fail. -/
theorem Reached.next_finishes (reached : s.Reached) (at_ : s.pc t = .findNext f i prev c) :
    s.Finishes t := by
  have calls : (s.pc t).call = some (.loadAndSetHazardOrFail (c, i) 0) := by rw [at_]; rfl
  refine (reached_leads reached (reached.returns calls)).bind ?_
  rintro s₁ ⟨reached₁, r, returns, -, sys, rfl⟩
  have ready₁ := ready_after reached₁
  rw [at_] at ready₁ ⊢
  cases r with
  | fail => exact ready₁.head_finishes after_pc_self
  | value p => exact ready₁.prev_finishes after_pc_self
  | _ => exact returns.elim

end Inside

/-! ## From inside the other calls -/

theorem Ready.load_finishes {k : Key} {c : Addr} {i : Nat} (ready : s.Ready t)
    (at_ : s.pc t = .eraseLoad k c i false) : s.Finishes t := by
  refine (ready.marks at_).bind ?_
  rintro s₁ ⟨ready₁, -, at₁⟩
  exact ready₁.head_finishes at₁

/-- From an exchange of `erase`; if it fails, the pointer is loaded again. -/
theorem Ready.mark_finishes {k : Key} {c : Addr} {i : Nat} {nexti : Ptr} (ready : s.Ready t)
    (at_ : s.pc t = .eraseMark k c i nexti false) : s.Finishes t := by
  have goes : s.solo t = s.plan t (.eraseMark k c i nexti false) := solo_plan at_ rfl
  simp only [plan] at goes
  split at goes
  · refine ready.goes goes fun s₁ ready₁ stepped => ?_
    cases i with
    | zero => exact ready₁.enter_finishes stepped.pc
    | succ i => exact ready₁.load_finishes stepped.pc
  · exact ready.reads goes fun _ ready₁ _ at₁ => ready₁.load_finishes at₁

theorem Ready.level_finishes {k : Key} {value : Value} {level : Nat} (ready : s.Ready t)
    (at_ : s.pc t = .insertLevel k value level) : s.Finishes t := by
  have goes : s.solo t = s.plan t (.insertLevel k value level) := solo_plan at_ rfl
  simp only [plan] at goes
  split at goes
  all_goals exact ready.goes goes fun _ ready₁ stepped => ready₁.enter_finishes stepped.pc

end State

end Ccmetrics.SkipList
