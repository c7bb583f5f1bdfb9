/-
# Theory.Linearize -- one moment for each call of a shared object

Threads call the operations of an object and return from them. `Spec` is the object as one
thread would see it: `spec c op r c'` says that `op`, called on the content `c`, may return `r`
and leave `c'`. A history of calls and returns is linearizable if it is one of the atomic
object (`Atomic`), where each call takes effect in one move between its call and its return.

An implementation seldom shows when a call that changes nothing takes effect. `Watched` only
asks that what such a call returns was right at some moment since it was called; the calls that
change the content do so at a moment that is known. `linearizable_of_watched` finds the moments:

* `due` looks ahead to what a call is going to return,
* `foresee` lets the call take effect as soon as this is right,
* `settle` makes the moves that have become due.
-/
import Mathlib.Logic.Function.Basic

namespace Ccmetrics.Theory.Linearize

set_option autoImplicit false

variable {T σ Op Ret : Type}

/-- What happens at the object; `effect` is not seen from outside. -/
inductive Event (T Op Ret : Type) where
  | call (t : T) (op : Op)
  | effect (t : T) (r : Ret)
  | ret (t : T) (r : Ret)

namespace Event

def thread : Event T Op Ret → T
  | .call t _ | .effect t _ | .ret t _ => t

def visible : Event T Op Ret → Bool
  | .effect _ _ => false
  | _ => true

end Event

/-- The history that is seen of a list of events. -/
def observed (es : List (Event T Op Ret)) : List (Event T Op Ret) := es.filter Event.visible

/-- An object as one thread would see it. -/
abbrev Spec (σ Op Ret : Type) := σ → Op → Ret → σ → Prop

/-- The steps of a labelled machine, one after the other. -/
inductive Steps {S E : Type} (step : S → E → S → Prop) : S → List E → S → Prop
  | nil (s : S) : Steps step s [] s
  | cons {s mid s' : S} {e : E} {es : List E} :
      step s e mid → Steps step mid es s' → Steps step s (e :: es) s'

theorem Steps.append {S E : Type} {step : S → E → S → Prop} {s mid s' : S} {es es' : List E}
    (first : Steps step s es mid) (second : Steps step mid es' s') : Steps step s (es ++ es') s' := by
  induction first with
  | nil => exact second
  | cons taken _ ih => exact .cons taken (ih second)

/-! ## The atomic object -/

inductive Phase (Op Ret : Type) where
  | idle
  | called (op : Op)
  | done (r : Ret)

structure Atomic (T σ Op Ret : Type) where
  content : σ
  phase : T → Phase Op Ret

section Objects

variable [DecidableEq T]

inductive Atomic.Step (spec : Spec σ Op Ret) :
    Atomic T σ Op Ret → Event T Op Ret → Atomic T σ Op Ret → Prop
  | call (a : Atomic T σ Op Ret) (t : T) (op : Op) : a.phase t = .idle →
      Step spec a (.call t op) ⟨a.content, Function.update a.phase t (.called op)⟩
  | effect (a : Atomic T σ Op Ret) (t : T) (op : Op) (r : Ret) (c : σ) : a.phase t = .called op →
      spec a.content op r c → Step spec a (.effect t r) ⟨c, Function.update a.phase t (.done r)⟩
  | ret (a : Atomic T σ Op Ret) (t : T) (r : Ret) : a.phase t = .done r →
      Step spec a (.ret t r) ⟨a.content, Function.update a.phase t .idle⟩

/-- Every call has a moment at which it takes effect, between its call and its return. -/
def Linearizable (spec : Spec σ Op Ret) (c : σ) (h : List (Event T Op Ret)) : Prop :=
  ∃ es a, Steps (Atomic.Step spec) ⟨c, fun _ => .idle⟩ es a ∧ observed es = h

/-! ## Watching an implementation -/

/-- A call that has not changed anything may return what was right since it was called. -/
inductive Standing (Op Ret : Type) where
  | idle
  | open (op : Op) (right : Ret → Prop)
  | done (r : Ret)

structure Watched (T σ Op Ret : Type) where
  content : σ
  standing : T → Standing Op Ret

/-- `r` is right on the content `c`, and does not change it. -/
def Right (spec : Spec σ Op Ret) (c : σ) (op : Op) (r : Ret) : Prop := spec c op r c

/-- The content has become `c`. -/
def Standing.note (spec : Spec σ Op Ret) (c : σ) : Standing Op Ret → Standing Op Ret
  | .open op right => .open op fun r => right r ∨ Right spec c op r
  | standing => standing

inductive Watched.Step (spec : Spec σ Op Ret) :
    Watched T σ Op Ret → Event T Op Ret → Watched T σ Op Ret → Prop
  | call (w : Watched T σ Op Ret) (t : T) (op : Op) : w.standing t = .idle →
      Step spec w (.call t op)
        ⟨w.content, Function.update w.standing t (.open op (Right spec w.content op))⟩
  | effect (w : Watched T σ Op Ret) (t : T) (op : Op) (right : Ret → Prop) (r : Ret) (c : σ) :
      w.standing t = .open op right → spec w.content op r c →
      Step spec w (.effect t r)
        ⟨c, Function.update (fun u => (w.standing u).note spec c) t (.done r)⟩
  | ret (w : Watched T σ Op Ret) (t : T) (r : Ret) :
      (w.standing t = .done r ∨ ∃ op right, w.standing t = .open op right ∧ right r) →
      Step spec w (.ret t r) ⟨w.content, Function.update w.standing t .idle⟩

/-! ## Finding the moments -/

/-- What the running call of `t` is going to return, if it changes nothing before. -/
def due (t : T) : List (Event T Op Ret) → Option Ret
  | [] => none
  | .ret u r :: rest => if u = t then some r else due t rest
  | e :: rest => if e.thread = t then none else due t rest

open Classical in
/-- Take effect as soon as the coming result is right. -/
noncomputable def foresee (coming : Option Ret) : Standing Op Ret → Phase Op Ret
  | .idle => .idle
  | .done r => .done r
  | .open op right =>
      match coming with
      | some r => if right r then .done r else .called op
      | none => .called op

noncomputable def Watched.atomic (w : Watched T σ Op Ret) (es : List (Event T Op Ret)) :
    Atomic T σ Op Ret :=
  ⟨w.content, fun t => foresee (due t es) (w.standing t)⟩

variable {spec : Spec σ Op Ret} {w w' : Watched T σ Op Ret} {a : Atomic T σ Op Ret}
variable {e : Event T Op Ret} {es rest : List (Event T Op Ret)} {t : T}

theorem due_other (other : e.thread ≠ t) : due t (e :: rest) = due t rest := by
  cases e <;> exact if_neg other

theorem thread_of_due {r : Ret} (coming : due t es = some r) : t ∈ es.map Event.thread := by
  induction es with
  | nil => cases coming
  | cons e rest ih =>
      by_cases mine : e.thread = t
      · exact mine ▸ List.mem_cons_self ..
      · rw [due_other mine] at coming
        exact List.mem_cons_of_mem _ (ih coming)

/-- A set of calls takes effect on the same content, one after the other. -/
theorem settle {l : List T} {phase : T → Phase Op Ret}
    (moves : ∀ u, a.phase u = phase u ∨ u ∈ l ∧ ∃ op r,
      a.phase u = .called op ∧ phase u = .done r ∧ Right spec a.content op r) :
    ∃ es, Steps (Atomic.Step spec) a es ⟨a.content, phase⟩ ∧ observed es = [] := by
  induction l generalizing a with
  | nil =>
      have same : a.phase = phase := funext fun u =>
        (moves u).resolve_right fun inList => List.not_mem_nil inList.1
      subst same
      exact ⟨[], .nil a, rfl⟩
  | cons t rest ih =>
      by_cases same : a.phase t = phase t
      · refine ih fun u => (moves u).imp_right fun move => ⟨?_, move.2⟩
        rcases List.mem_cons.1 move.1 with rfl | inRest
        · obtain ⟨-, op, r, called, done, -⟩ := move
          rw [called, done] at same
          cases same
        · exact inRest
      · obtain ⟨-, op, r, called, done, right⟩ := (moves t).resolve_left same
        obtain ⟨es, steps, quiet⟩ : ∃ es, Steps (Atomic.Step spec)
            ⟨a.content, Function.update a.phase t (.done r)⟩ es ⟨a.content, phase⟩ ∧ observed es = [] := by
          refine ih (a := ⟨a.content, Function.update a.phase t (.done r)⟩) fun u => ?_
          by_cases isT : u = t
          · subst isT
            exact .inl ((Function.update_self ..).trans done.symm)
          · simp only [Function.update_of_ne isT]
            refine (moves u).imp_right fun move => ⟨?_, move.2⟩
            exact (List.mem_cons.1 move.1).resolve_left isT
        exact ⟨.effect t r :: es, .cons (.effect a t op r a.content called right) steps, quiet⟩

/-- Noting a new content makes some calls take effect, and no other change. -/
theorem foresee_note (coming : Option Ret) (standing : Standing Op Ret) (c : σ) :
    foresee coming standing = foresee coming (standing.note spec c) ∨
      ∃ op r, coming = some r ∧ foresee coming standing = .called op ∧
        foresee coming (standing.note spec c) = .done r ∧ Right spec c op r := by
  cases standing with
  | idle | done r => exact .inl rfl
  | «open» op right =>
      cases coming with
      | none => exact .inl rfl
      | some r =>
          by_cases before : right r
          · exact .inl (by simp [foresee, Standing.note, before])
          · by_cases now : Right spec c op r
            · exact .inr ⟨op, r, rfl, by simp [foresee, before],
                by simp [foresee, Standing.note, now], now⟩
            · exact .inl (by simp [foresee, Standing.note, before, now])

/-- The atomic object follows one move of the implementation. -/
theorem Watched.Step.atomic (taken : Watched.Step spec w e w') (rest : List (Event T Op Ret)) :
    ∃ es, Steps (Atomic.Step spec) (w.atomic (e :: rest)) es (w'.atomic rest) ∧
      observed es = observed [e] := by
  cases taken with
  | call t op idle =>
      have enters : Atomic.Step spec _ (.call t op) _ :=
        .call (w.atomic (.call t op :: rest)) t op (by simp [Watched.atomic, idle, foresee])
      obtain ⟨es, steps, quiet⟩ : ∃ es, Steps (Atomic.Step spec)
          ⟨w.content, Function.update (w.atomic (.call t op :: rest)).phase t (.called op)⟩ es
          (Watched.atomic ⟨w.content, Function.update w.standing t
            (.open op (Right spec w.content op))⟩ rest) ∧ observed es = [] := by
        refine settle (l := [t]) fun u => ?_
        by_cases isT : u = t
        · subst isT
          simp only [Watched.atomic, Function.update_self]
          cases coming : due u rest with
          | none => exact .inl rfl
          | some r =>
              by_cases right : Right spec w.content op r
              · exact .inr ⟨List.mem_singleton_self _, op, r, rfl, by simp [foresee, right], right⟩
              · exact .inl (by simp [foresee, right])
        · refine .inl ?_
          simp only [Watched.atomic, Function.update_of_ne isT]
          rw [due_other (Ne.symm isT)]
      refine ⟨.call t op :: es, .cons enters steps, ?_⟩
      rw [observed, List.filter_cons_of_pos rfl, ← observed, quiet]
      rfl
  | effect t op right r c isOpen allowed =>
      have acts : Atomic.Step spec _ (.effect t r) _ :=
        .effect (w.atomic (.effect t r :: rest)) t op r c (by simp [Watched.atomic, isOpen, foresee, due, Event.thread]) allowed
      obtain ⟨es, steps, quiet⟩ : ∃ es, Steps (Atomic.Step spec)
          ⟨c, Function.update (w.atomic (.effect t r :: rest)).phase t (.done r)⟩ es
          (Watched.atomic ⟨c, Function.update (fun u => (w.standing u).note spec c) t (.done r)⟩
            rest) ∧ observed es = [] := by
        refine settle (l := rest.map Event.thread) fun u => ?_
        by_cases isT : u = t
        · subst isT
          exact .inl (by simp [Watched.atomic, foresee])
        · simp only [Watched.atomic, Function.update_of_ne isT]
          rw [due_other (Ne.symm isT)]
          have noted := @foresee_note _ _ _ spec (due u rest) (w.standing u) c
          rcases noted with same | ⟨op, r, coming, called, done, right⟩
          · exact .inl same
          · exact .inr ⟨thread_of_due coming, op, r, called, done, right⟩
      exact ⟨.effect t r :: es, .cons acts steps, quiet⟩
  | ret t r returns =>
      have leaves : Atomic.Step spec _ (.ret t r) _ := .ret (w.atomic (.ret t r :: rest)) t r (by
        rcases returns with done | ⟨op, right, isOpen, wasRight⟩
        · simp [Watched.atomic, done, foresee]
        · simp [Watched.atomic, isOpen, foresee, due, wasRight])
      refine ⟨[.ret t r], .cons leaves ?_, rfl⟩
      have same : Function.update (w.atomic (.ret t r :: rest)).phase t .idle =
          (Watched.atomic ⟨w.content, Function.update w.standing t .idle⟩ rest).phase := by
        funext u
        by_cases isT : u = t
        · subst isT
          simp [Watched.atomic, foresee]
        · simp only [Watched.atomic, Function.update_of_ne isT]
          rw [due_other (Ne.symm isT)]
      rw [same]
      exact .nil _

theorem Watched.steps_atomic (steps : Steps (Watched.Step spec) w es w') :
    ∃ es' a, Steps (Atomic.Step spec) (w.atomic es) es' a ∧ observed es' = observed es := by
  induction steps with
  | nil w => exact ⟨[], _, .nil _, rfl⟩
  | cons taken _ ih =>
      obtain ⟨first, steps, same⟩ := taken.atomic _
      obtain ⟨second, a, steps', same'⟩ := ih
      refine ⟨first ++ second, a, steps.append steps', ?_⟩
      rw [observed, List.filter_append, ← observed, ← observed, same, same', observed, observed, ← List.filter_append]
      rfl

/-- **What was right in the meantime is linearizable**: the history of an implementation whose
changing calls take effect at a known moment, and whose other calls return what was right at
some moment since they were called, is a history of the atomic object. -/
theorem linearizable_of_watched {c : σ}
    (steps : Steps (Watched.Step spec) ⟨c, fun _ => .idle⟩ es w) :
    Linearizable spec c (observed es) := by
  obtain ⟨es', a, steps', same⟩ := Watched.steps_atomic steps
  exact ⟨es', a, steps', same⟩

end Objects

end Ccmetrics.Theory.Linearize
