/-
# Theory.Alone -- a deterministic machine run until it is done

`runUntil next done n s` lets the machine `next` run from `s` until `done`, for at most `n`
steps. `runUntil_ends` is the rule for total correctness: an invariant under which every step
that is not the last one is taken, keeps the invariant and lowers a well-founded measure.

`Leads next s Q` says that the machine comes from `s` to a state with `Q`. It is put together from
single steps and from other runs (`leads_step`, `Leads.bind`); a machine that halts where it is
done is done in the state that it leads to (`Leads.ends`), and one that leads into a trap is never
done (`Leads.trapped`).
-/
import Mathlib.Data.Prod.Lex
import Mathlib.Logic.Relation

namespace Ccmetrics.Theory

set_option autoImplicit false

universe u v

variable {σ : Type u} {β : Type v}

def runUntil (next : σ → Option σ) (done : σ → Bool) : Nat → σ → Option σ
  | 0, s => if done s then some s else none
  | n + 1, s => if done s then some s else (next s).bind (runUntil next done n)

variable {next : σ → Option σ} {done : σ → Bool} {s s' : σ} {n : Nat}

theorem runUntil_done (isDone : done s = true) (n : Nat) : runUntil next done n s = some s := by
  cases n <;> simp [runUntil, isDone]

theorem runUntil_next (busy : done s = false) (taken : next s = some s') :
    runUntil next done (n + 1) s = runUntil next done n s' := by
  simp [runUntil, busy, taken]

theorem done_of_runUntil (ends : runUntil next done n s = some s') : done s' = true := by
  induction n generalizing s with
  | zero =>
      simp only [runUntil] at ends
      split at ends
      · rename_i isDone
        exact Option.some.inj ends ▸ isDone
      · cases ends
  | succ n ih =>
      simp only [runUntil] at ends
      split at ends
      · rename_i isDone
        exact Option.some.inj ends ▸ isDone
      · obtain ⟨mid, -, rest⟩ := Option.bind_eq_some_iff.1 ends
        exact ih rest

/-- More steps than needed do not change the outcome. -/
theorem runUntil_mono (ends : runUntil next done n s = some s') {m : Nat} (more : n ≤ m) :
    runUntil next done m s = some s' := by
  induction n generalizing s m with
  | zero =>
      simp only [runUntil] at ends
      split at ends
      · rename_i isDone
        rw [← ends]
        exact runUntil_done isDone m
      · cases ends
  | succ n ih =>
      obtain ⟨m, rfl⟩ : ∃ k, m = k + 1 := ⟨m - 1, by omega⟩
      simp only [runUntil] at ends ⊢
      split at ends
      · rename_i isDone
        simpa [isDone] using ends
      · rename_i busy
        obtain ⟨mid, taken, rest⟩ := Option.bind_eq_some_iff.1 ends
        simp only [busy, if_false, taken, Option.bind_some, Bool.false_eq_true]
        exact ih rest (by omega)

/-- **Total correctness by a measure.** -/
theorem runUntil_ends {inv : σ → Prop} {lt : β → β → Prop} (wf : WellFounded lt) (m : σ → β)
    (progress : ∀ s, inv s → done s = false →
      ∃ s', next s = some s' ∧ inv s' ∧ (done s' = true ∨ lt (m s') (m s)))
    (start : inv s) : ∃ n s', runUntil next done n s = some s' ∧ inv s' := by
  suffices ∀ b s, m s = b → inv s → ∃ n s', runUntil next done n s = some s' ∧ inv s' from
    this (m s) s rfl start
  intro b
  induction b using wf.induction with
  | _ b ih =>
      rintro s rfl holds
      cases busy : done s with
      | true => exact ⟨0, s, runUntil_done busy 0, holds⟩
      | false =>
          obtain ⟨mid, taken, kept, finished | lower⟩ := progress s holds busy
          · exact ⟨1, mid, by rw [runUntil_next busy taken, runUntil_done finished], kept⟩
          · obtain ⟨n, last, ends, final⟩ := ih (m mid) lower mid rfl kept
            exact ⟨n + 1, last, by rw [runUntil_next busy taken, ends], final⟩

/-! ## Runs put together -/

def Leads (next : σ → Option σ) (s : σ) (Q : σ → Prop) : Prop :=
  ∃ s', Relation.ReflTransGen (fun a b => next a = some b) s s' ∧ Q s'

section Leads

variable {P Q : σ → Prop}

theorem leads_here (holds : Q s) : Leads next s Q := ⟨s, .refl, holds⟩

theorem leads_step (taken : next s = some s') (rest : Leads next s' Q) : Leads next s Q := by
  obtain ⟨last, steps, holds⟩ := rest
  exact ⟨last, .head taken steps, holds⟩

theorem Leads.bind (first : Leads next s P) (second : ∀ s', P s' → Leads next s' Q) :
    Leads next s Q := by
  obtain ⟨mid, steps, holds⟩ := first
  obtain ⟨last, steps', holds'⟩ := second mid holds
  exact ⟨last, steps.trans steps', holds'⟩

theorem Leads.imp (first : Leads next s P) (weaker : ∀ s', P s' → Q s') : Leads next s Q :=
  first.bind fun s' holds => leads_here (weaker s' holds)

/-- What every step keeps holds where the machine is led. -/
theorem Leads.keep {inv : σ → Prop} (first : Leads next s Q)
    (kept : ∀ a b, inv a → next a = some b → inv b) (start : inv s) :
    Leads next s fun s' => inv s' ∧ Q s' := by
  obtain ⟨last, steps, holds⟩ := first
  refine ⟨last, steps, ?_, holds⟩
  clear holds
  induction steps with
  | refl => exact start
  | tail _ taken ih => exact kept _ _ ih taken

/-! A machine that stays within `inv`, and takes no step there once it is done. -/

variable {inv : σ → Prop} (kept : ∀ a b, inv a → next a = some b → inv b)
variable (halts : ∀ a, inv a → done a = true → next a = none)
include kept halts

theorem Leads.ends (leads : Leads next s fun s' => done s' = true ∧ Q s') (start : inv s) :
    ∃ n s', runUntil next done n s = some s' ∧ Q s' := by
  obtain ⟨last, steps, isDone, holds⟩ := leads
  induction steps using Relation.ReflTransGen.head_induction_on with
  | refl => exact ⟨0, last, runUntil_done isDone 0, holds⟩
  | @head a b taken _ ih =>
      obtain ⟨n, s', ends, holds'⟩ := ih (kept a b start taken)
      refine ⟨n + 1, s', ?_, holds'⟩
      cases busy : done a with
      | true => rw [halts a start busy] at taken; cases taken
      | false => rw [runUntil_next busy taken, ends]

/-- A set of busy states that no step leaves. -/
theorem Leads.trapped {trap : σ → Prop} (leads : Leads next s trap) (start : inv s)
    (closed : ∀ a b, trap a → next a = some b → trap b) (busy : ∀ a, trap a → done a = false)
    (n : Nat) (s' : σ) : runUntil next done n s ≠ some s' := by
  have inside : ∀ n a, trap a → runUntil next done n a ≠ some s' := by
    intro n
    induction n with
    | zero =>
        intro a trapped ends
        simp [runUntil, busy a trapped] at ends
    | succ n ih =>
        intro a trapped ends
        simp only [runUntil, busy a trapped, Bool.false_eq_true, if_false] at ends
        obtain ⟨b, taken, rest⟩ := Option.bind_eq_some_iff.1 ends
        exact ih b (closed a b trapped taken) rest
  obtain ⟨last, steps, trapped⟩ := leads
  induction steps using Relation.ReflTransGen.head_induction_on generalizing n with
  | refl => exact inside n last trapped
  | @head a b taken _ ih =>
      intro ends
      have going : done a = false := by
        cases isDone : done a with
        | true => rw [halts a start isDone] at taken; cases taken
        | false => rfl
      cases n with
      | zero => simp [runUntil, going] at ends
      | succ n =>
          rw [runUntil_next going taken] at ends
          exact ih (kept a b start taken) n ends

end Leads

end Ccmetrics.Theory
