/-
# Hazard.Clients -- any number of threads using one `HazardPointers<T, K>`

The open system: threads allocate and retire records, publish nodes in atomic cells, set,
load and clear hazards, and retire nodes, in any interleaving of the accesses of
`hazard_pointers.h`. The client writes its cells as it likes, as long as a retired node is
never put back.

`Guard r p` follows one pointer through the slots of one record by the client's own rule:
it starts with the slot that `loadAndSetHazard` filled, a slot with a larger index joins when
`p` is written there while a guarding slot with a smaller index still holds it, and a slot
leaves when something else is written there. `guarded_not_deleted` is the guarantee: as long
as the set is not empty, `scan` has not deleted `p`. The set stays as it is while the owner of
the record does nothing (`guard_run`).
-/
import Mathlib.Data.Fintype.Basic
import Ccmetrics.Theory.Run
import Ccmetrics.Hazard.Records
import Ccmetrics.Hazard.Cover

namespace Ccmetrics.Hazard

set_option autoImplicit false
set_option linter.unusedSectionVars false

/-- The shared cells and the hazard pointers of all threads. -/
structure Clients (T P C : Type) where
  sys : Sys T P C
  cells : C → P

/-- One thing that happens. -/
inductive Move (T P C : Type) where
  | call (t : T) (c : Call P C)
  | access (t : T)
  | write (c : C) (value : P)
  deriving DecidableEq

namespace Clients

variable {T P C : Type} [DecidableEq T] [DecidableEq P] [DecidableEq C] [Inhabited P]

def init : Clients T P C where
  sys := .init
  cells _ := default

/-- The steps of the system. A call needs a thread that is outside `hazard_pointers.h`; a
write is a store or a successful compare-and-swap of the client's own algorithm. -/
inductive Step (K : Nat) : Clients T P C → Move T P C → Clients T P C → Prop
  | call (s : Clients T P C) (t : T) (c : Call P C) : s.sys.pc t = .idle →
      s.sys.Callable K t c → s.sys.Permitted s.cells c →
      Step K s (.call t c) { s with sys := s.sys.call t c }
  | access (s : Clients T P C) (t : T) (sys' : Sys T P C) (r : Option (Ret P)) :
      s.sys.step K s.cells t = some (sys', r) →
      Step K s (.access t) { s with sys := sys' }
  | write (s : Clients T P C) (c : C) (value : P) : value ∉ s.sys.retired →
      Step K s (.write c value)
        { s with cells := fun x => if x = c then value else s.cells x }

def Reachable (K : Nat) : Clients T P C → Prop :=
  Relation.ReflTransGen (fun s s' => ∃ m, Step K s m s') init

/-- What the next access of thread `t` does to shared memory. -/
def effect (K : Nat) (s : Clients T P C) (t : T) : Effect P :=
  match plan K s.cells s.sys.pool (s.sys.pc t) with
  | some (e, _) => e
  | none => .none

/-- The slots of record `r` that guard `p`, after one access. -/
def guardAfter (r : Nat) (p : P) (guard : Nat → Prop) : Effect P → Nat → Prop
  | .slot hp k value, j =>
      if hp = r ∧ j = k then value = p ∧ (guard k ∨ ∃ i < k, guard i) else guard j
  | _, j => guard j

/-- One step of the system, carrying along the slots of record `r` that guard `p`. -/
inductive Guard (K : Nat) (r : Nat) (p : P) :
    Clients T P C × (Nat → Prop) → Clients T P C × (Nat → Prop) → Prop
  | access {s s' : Clients T P C} {t : T} {guard : Nat → Prop} : Step K s (.access t) s' →
      Guard K r p (s, guard) (s', guardAfter r p guard (s.effect K t))
  | call {s s' : Clients T P C} {t : T} {c : Call P C} {guard : Nat → Prop} :
      Step K s (.call t c) s' → Guard K r p (s, guard) (s', guard)
  | write {s s' : Clients T P C} {c : C} {value : P} {guard : Nat → Prop} :
      Step K s (.write c value) s' → Guard K r p (s, guard) (s', guard)

variable {K : Nat} {s s' : Clients T P C} {t : T} {m : Move T P C}

theorem sound_step (sound : s.sys.Sound K s.cells) (step : Step K s m s') :
    s'.sys.Sound K s'.cells := by
  cases step with
  | call t c idle callable permitted => exact sound.call idle callable permitted
  | access t sys' r stepped => exact sound.step stepped
  | write c value absent =>
      refine sound.write fun x => ?_
      by_cases same : x = c
      · exact .inr (by simpa [same] using absent)
      · exact .inl (by simp [same])

theorem sound_of_reachable (reachable : Reachable K s) : s.sys.Sound K s.cells := by
  induction reachable with
  | refl => exact Sys.sound_init _
  | tail _ last ih =>
      obtain ⟨m, step⟩ := last
      exact sound_step ih step

theorem effect_access {sys' : Sys T P C} {r : Option (Ret P)}
    (stepped : s.sys.step K s.cells t = some (sys', r)) :
    ∃ nx, Access K s.cells s.sys.pool (s.sys.pc t) (s.effect K t) nx ∧
      sys' = s.sys.after t (s.effect K t) nx := by
  simp only [Sys.step] at stepped
  unfold effect
  split at stepped
  · cases stepped
  · rename_i e pc planned
    cases stepped
    rw [planned]
    exact ⟨.goto pc, access_of_plan planned, rfl⟩
  · rename_i e q planned
    cases stepped
    rw [planned]
    exact ⟨.ret q, access_of_plan planned, rfl⟩

/-- Every guarding slot holds the pointer and is covered. -/
def Guarded (r : Nat) (p : P) (x : Clients T P C × (Nat → Prop)) : Prop :=
  ∀ k, x.2 k → x.1.sys.slot r k = p ∧ x.1.sys.held r k = true

theorem guarded_access {r : Nat} {p : P} {guard : Nat → Prop} (sound : s.sys.Sound K s.cells)
    (node : p ≠ default) (guarded : Guarded r p (s, guard)) (e : Effect P) (k : Nat)
    (guards : guardAfter r p guard e k) :
    ((s.sys.pool.apply e).record r).pointers k = p ∧ (s.sys.apply e).held r k = true := by
  rw [HazardPointers.apply_pointers]
  cases e with
  | slot hp j value =>
      simp only [guardAfter] at guards
      by_cases here : hp = r ∧ k = j
      · obtain ⟨rfl, rfl⟩ := here
        simp only [and_self, if_true] at guards
        obtain ⟨rfl, from_⟩ := guards
        refine ⟨by simp, ?_⟩
        simp only [Sys.apply, and_self, if_true, Sys.covers, Bool.or_eq_true, Bool.and_eq_true,
          decide_eq_true_eq, List.any_eq_true, List.mem_range]
        rcases from_ with again | ⟨i, below, copied⟩
        · obtain ⟨holds, held⟩ := guarded k again
          exact .inl (.inr ⟨held, holds⟩)
        · obtain ⟨holds, held⟩ := guarded i copied
          exact .inr ⟨i, below, held, holds⟩
      · simp only [here, if_false] at guards
        have apart : ¬ (r = hp ∧ k = j) := fun same => here ⟨same.1.symm, same.2⟩
        have before : (s.sys.pool.record r).pointers k = p ∧ s.sys.held r k = true :=
          guarded k guards
        simpa [Sys.apply, apart] using before
  | create =>
      have before : (s.sys.pool.record r).pointers k = p ∧ s.sys.held r k = true :=
        guarded k guards
      have listed := sound.listing.slots r k (by rw [Sys.slot, before.1]; exact node)
      have : r ≠ s.sys.pool.fresh := Nat.ne_of_lt (sound.listing.bounded r listed)
      simpa [Sys.apply, this] using before
  | _ => exact guarded k guards

theorem guarded_step {r : Nat} {p : P} {x y : Clients T P C × (Nat → Prop)}
    (sound : x.1.sys.Sound K x.1.cells) (node : p ≠ default) (guarded : Guarded r p x)
    (moved : Guard K r p x y) : y.1.sys.Sound K y.1.cells ∧ Guarded r p y := by
  cases moved with
  | @access s s' t guard step =>
      refine ⟨sound_step sound step, fun k guards => ?_⟩
      cases step with
      | access t sys' q stepped =>
          obtain ⟨nx, -, rfl⟩ := effect_access stepped
          simpa [Sys.slot] using guarded_access sound node guarded _ k guards
  | call step =>
      refine ⟨sound_step sound step, ?_⟩
      cases step with
      | call t c idle callable permitted => exact guarded
  | write step =>
      refine ⟨sound_step sound step, ?_⟩
      cases step with
      | write c value absent => exact guarded

/-- The second load of `loadAndSetHazard` saw the pointer that its slot holds. -/
theorem load_returns {sys' : Sys T P C} {r k : Nat} {once : Bool} {c : C} {p : P}
    (checking : s.sys.pc t = .loadCheck r once c k p)
    (returned : s.sys.step K s.cells t = some (sys', some (.value p))) :
    p = s.cells c ∧ sys' = s.sys.after t .none (.ret (.value p)) := by
  obtain ⟨e, nx, access, rfl, last⟩ := Sys.step_access returned
  obtain rfl := (last _).1 rfl
  rw [checking] at access
  cases access
  exact ⟨rfl, rfl⟩

/-- **Hazard pointers protect.** Let `loadAndSetHazard` (or `loadAndSetHazardOrFail`) on slot
`k` of record `r` have returned the node `p`. Whatever all threads do next, as long as slot
`k` still holds `p`, or some slot of `r` does to which `p` was passed on upwards while a
guarding slot below still held it, `scan` has not deleted `p`. -/
theorem guarded_not_deleted {s₀ s : Clients T P C} {sys₁ : Sys T P C} {t : T} {r k : Nat}
    {once : Bool} {c : C} {p : P} {g : Nat → Prop} (reachable : Reachable K s₀)
    (checking : s₀.sys.pc t = .loadCheck r once c k p) (node : p ≠ default)
    (returned : s₀.sys.step K s₀.cells t = some (sys₁, some (.value p)))
    (run : Relation.ReflTransGen (Guard K r p) ({ s₀ with sys := sys₁ }, (· = k)) (s, g))
    (guards : ∃ j, g j) : p ∉ s.sys.pool.deleted := by
  have sound := sound_of_reachable reachable
  obtain ⟨seen, rfl⟩ := load_returns checking returned
  have start : Guarded r p ({ s₀ with sys := s₀.sys.after t .none (.ret (.value p)) }, (· = k)) := by
    intro j same
    rw [same]
    have holds : s₀.sys.slot r k = p := sound.covered.loaded t r once c k p checking
    have fresh : p ∉ s₀.sys.retired := fun retired => sound.covered.away p retired c seen.symm
    exact ⟨holds, sound.covered.early r k (holds ▸ fresh)⟩
  have carried : s.sys.Sound K s.cells ∧ Guarded r p (s, g) := by
    generalize goal : (s, g) = x at run
    suffices x.1.sys.Sound K x.1.cells ∧ Guarded r p x by subst goal; exact this
    clear goal
    induction run with
    | refl => exact ⟨sound.step returned, start⟩
    | tail _ moved ih => exact guarded_step ih.1 node ih.2 moved
  obtain ⟨j, guarding⟩ := guards
  obtain ⟨holds, held⟩ := carried.2 j guarding
  exact fun deleted => (carried.1.covered.gone p deleted).2 r j held holds

/-! ## Runs -/

instance decidablePermitted [Fintype C] (s : Clients T P C) :
    (c : Call P C) → Decidable (s.sys.Permitted s.cells c)
  | .retireNode node =>
      inferInstanceAs (Decidable (node ≠ default ∧ node ∉ s.sys.retired ∧ ∀ c, s.cells c ≠ node))
  | .allocate | .retire | .setHazard _ _ | .loadAndSetHazard _ _ | .loadAndSetHazardOrFail _ _ =>
      isTrue trivial

/-- One step as a function, for replaying a schedule. -/
def next [Fintype C] (K : Nat) (s : Clients T P C) : Move T P C → Option (Clients T P C)
  | .call t c =>
      if s.sys.pc t = .idle ∧ s.sys.Callable K t c ∧ s.sys.Permitted s.cells c then
        some { s with sys := s.sys.call t c }
      else none
  | .access t => (s.sys.step K s.cells t).map fun out => { s with sys := out.1 }
  | .write c value =>
      if value ∉ s.sys.retired then
        some { s with cells := fun x => if x = c then value else s.cells x }
      else none

section Runs

variable [Fintype C] {ms : List (Move T P C)} {r : Nat} {p : P} {guard : Nat → Prop}

theorem step_of_next (taken : next K s m = some s') : Step K s m s' := by
  cases m with
  | call t c =>
      simp only [next] at taken
      split at taken
      · rename_i allowed
        cases taken
        exact .call s t c allowed.1 allowed.2.1 allowed.2.2
      · cases taken
  | access t =>
      obtain ⟨⟨sys', q⟩, stepped, rfl⟩ := Option.map_eq_some_iff.1 taken
      exact .access s t sys' q stepped
  | write c value =>
      simp only [next] at taken
      split at taken
      · rename_i absent
        cases taken
        exact .write s c value absent
      · cases taken

theorem reachable_run (reachable : Reachable K s) (ran : Theory.run (next K) s ms = some s') :
    Reachable K s' :=
  Theory.run_induction (fun _ m _ before taken => before.tail ⟨m, step_of_next taken⟩) reachable ran

/-- A thread writes to the slots of its own record only. -/
theorem guardAfter_other {u : T} {sys' : Sys T P C} {q : Option (Ret P)}
    (sound : s.sys.Sound K s.cells) (mine : s.sys.own u = some r) (other : t ≠ u)
    (stepped : s.sys.step K s.cells t = some (sys', q)) :
    guardAfter r p guard (s.effect K t) = guard := by
  obtain ⟨nx, access, -⟩ := effect_access stepped
  funext j
  cases effect : s.effect K t with
  | slot hp k value =>
      rw [effect] at access
      have own := sound.owned.this t hp (access_slot access)
      have apart : hp ≠ r := by
        rintro rfl
        exact other (sound.owned.exclusive t u hp (.inl own) (.inl mine))
      simp only [guardAfter, apart, false_and, if_false]
  | _ => rfl

/-- While the owner of the record makes no access, the slots that guard `p` stay the same. -/
theorem guard_run {u : T} (sound : s.sys.Sound K s.cells) (mine : s.sys.own u = some r)
    (still : ∀ m ∈ ms, m ≠ .access u) (ran : Theory.run (next K) s ms = some s') :
    Relation.ReflTransGen (Guard K r p) (s, guard) (s', guard) := by
  induction ms generalizing s with
  | nil =>
      cases ran
      exact .refl
  | cons m rest ih =>
      obtain ⟨mid, taken, ran⟩ := Theory.run_cons_eq_some.1 ran
      have step := step_of_next taken
      suffices mid.sys.own u = some r ∧ Guard K r p (s, guard) (mid, guard) from
        .head this.2 (ih (sound_step sound step) this.1
          (fun m inRest => still m (List.mem_cons_of_mem _ inRest)) ran)
      cases step with
      | call t c idle callable permitted =>
          exact ⟨mine, .call (.call s t c idle callable permitted)⟩
      | access t sys' q stepped =>
          have other : t ≠ u := by
            rintro rfl
            exact still _ (List.mem_cons_self ..) rfl
          obtain ⟨nx, -, after⟩ := effect_access stepped
          refine ⟨?_, ?_⟩
          · simp only [after]
            rw [Sys.after_own_other other.symm, mine]
          · have moved : Guard K r p (s, guard)
                ({ s with sys := sys' }, guardAfter r p guard (s.effect K t)) :=
              .access (.access s t sys' q stepped)
            rwa [guardAfter_other sound mine other stepped] at moved
      | write c value absent => exact ⟨mine, .write (.write s c value absent)⟩

end Runs

/-- Both threads allocate, and `true` has set the hazard for node 5 and is about to load again. -/
def checking : List (Move Bool Nat Unit) :=
  Move.call true .allocate :: List.replicate 5 (.access true) ++
  Move.call false .allocate :: List.replicate 6 (.access false) ++
  Move.write () 5 :: .call true (.loadAndSetHazard () 0) :: List.replicate 2 (.access true)

/-- `false` empties the cell, retires node 5 and two others, and scans. -/
def scanning : List (Move Bool Nat Unit) :=
  Move.write () 0 :: .call false (.retireNode 5) :: List.replicate 2 (.access false) ++
  Move.call false (.retireNode 6) :: List.replicate 2 (.access false) ++
  Move.call false (.retireNode 7) :: List.replicate 13 (.access false)

/-- The scan deletes the other two. -/
theorem guarded_not_deleted_scanned : ∃ s : Clients Bool Nat Unit,
    Theory.run (next 1) init (checking ++ .access true :: scanning) = some s ∧
      s.sys.retired = [7, 6, 5] ∧ s.sys.pool.deleted = [6, 7] ∧ 5 ∉ s.sys.pool.deleted := by
  have replay : (Theory.run (next 1) (init : Clients Bool Nat Unit)
      (checking ++ .access true :: scanning)).map (fun s => (s.sys.retired, s.sys.pool.deleted)) =
      some ([7, 6, 5], [6, 7]) := by
    decide +kernel
  obtain ⟨s, whole, seen⟩ := Option.map_eq_some_iff.1 replay
  obtain ⟨retired, deleted⟩ := Prod.mk.inj seen
  refine ⟨s, whole, retired, deleted, ?_⟩
  obtain ⟨s₀, ran, rest⟩ := Theory.run_append_eq_some.1 whole
  obtain ⟨s₁, returned, scans⟩ := Theory.run_cons_eq_some.1 rest
  have loaded : (Theory.run (next 1) (init : Clients Bool Nat Unit) checking).map (fun s =>
      (s.sys.pc true, s.sys.own true, (s.sys.step 1 s.cells true).map (·.2))) =
      some (.loadCheck 0 false () 0 5, some 0, some (some (.value 5))) := by
    decide +kernel
  rw [ran, Option.map_some, Option.some.injEq] at loaded
  simp only [Prod.mk.injEq] at loaded
  obtain ⟨atCheck, mine, result⟩ := loaded
  obtain ⟨⟨sys₁, q⟩, stepped, rfl⟩ := Option.map_eq_some_iff.1 returned
  rw [stepped, Option.map_some, Option.some.injEq] at result
  obtain rfl : q = some (.value 5) := result
  have reachable := reachable_run .refl ran
  have owner : sys₁.own true = some 0 := by
    rw [(load_returns atCheck stepped).2]
    exact mine
  exact guarded_not_deleted reachable atCheck (by decide) stepped
    (guard_run ((sound_of_reachable reachable).step stepped) owner (by decide) scans) ⟨0, rfl⟩

end Clients

end Ccmetrics.Hazard
