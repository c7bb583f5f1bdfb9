/-
# Striped.Drain -- reading a counter and resetting it while others add

A collector calls `value`, and then `reset`, to take what has been added since the last time. The
two calls are no atomic exchange. `Collected` runs the machine of one object and keeps, for each of
its places, the account of `Theory.Account`: a call of `add` deposits at one place, `value` looks
at one place after the other, and `reset` clears one after the other. Cells that come to the table
while a round is on are empty when they come, so it does not matter that `value` and `reset` may
see tables of different sizes.

Rounds must not overlap (`Orderly`). Then nothing is collected twice, and only what is added while
a round is on can be lost (`collects_once`).
-/
import Ccmetrics.Striped.Reset
import Ccmetrics.Theory.Account

namespace Ccmetrics.Striped

set_option autoImplicit false
set_option linter.unusedSectionVars false

open Theory (Account)

variable {T O : Type} [DecidableEq T] [DecidableEq O]

namespace PC

/-- The object on which the thread is inside `reset`. -/
def resetting : PC O → Option O
  | .resetBase this | .load (.reset this) | .loadSet (.reset this) _ | .loadCheck (.reset this) _
  | .resetSize this _ | .resetGet this _ _ _ | .resetClear this => some this
  | _ => none

/-- What a running call of `value` on `o` has added up. -/
def carries (o : O) : PC O → Nat
  | .valueLoad this ret | .valueSet this ret _ | .valueCheck this ret _ | .valueSize this ret _
  | .valueGet this ret _ _ _ | .valueClear this ret => if this = o then ret.toNat else 0
  | _ => 0

theorem resetting_of_reading {pc : PC O} {o : O} (reading : pc.reading = some o) :
    pc.resetting = none := by
  cases pc <;> first | rfl | cases reading

end PC

namespace State

variable {s s' : State T O} {t u : T} {e : Effect O} {nx : Next O} {o : O} {p : Place O}
variable {account : Place O → Account} {during : Nat}

/-- The place of `o` that the next step of a call of `value` reads. -/
def looks (s : State T O) (o : O) : PC O → Option (Place O)
  | .valueBase this => if this = o then some (.base o) else none
  | .valueGet this _ cur _ i => if this = o then some (.cell ((s.storage cur).get i)) else none
  | _ => none

/-- The places that the collector has not read in this round, or has emptied. -/
def Unread (s : State T O) (o : O) : PC O → Place O → Prop
  | .valueBase this, _ => this = o
  | .valueLoad this _, p | .valueSet this _ _, p | .valueCheck this _ _, p
  | .valueSize this _ _, p => this = o ∧ p ≠ .base o
  | .valueGet this _ cur _ i, p =>
      this = o ∧ p ≠ .base o ∧ ∀ c, p = .cell c → c ∉ (s.storage cur).data.take i
  | .load (.reset this), p | .loadSet (.reset this) _, p | .loadCheck (.reset this) _, p =>
      this = o ∧ p = .base o
  | .resetSize this cur, p => this = o ∧ ∀ c, p = .cell c → c ∉ (s.storage cur).data
  | .resetGet this cur _ i, p => this = o ∧ ∀ c, p = .cell c → c ∉ (s.storage cur).data.drop i
  | .resetClear this, _ => this = o
  | _, _ => False

/-- The places that it has read, and not emptied. A cell that is not in the storage at hand has
come after it was loaded. -/
def Read (s : State T O) (o : O) : PC O → Place O → Prop
  | .valueBase this, _ => this ≠ o
  | .valueLoad this _, p | .valueSet this _ _, p | .valueCheck this _ _, p => this = o → p = .base o
  | .valueSize this _ cur, p => this = o → ∀ c, p = .cell c → c ∉ (s.storage cur).data
  | .valueGet this _ cur _ i, p =>
      this = o → ∀ c, p = .cell c → c ∉ (s.storage cur).data.drop i
  | .load (.reset this), p | .loadSet (.reset this) _, p | .loadCheck (.reset this) _, p =>
      this = o → p ≠ .base o
  | .resetSize this cur, p => this = o → ∃ c ∈ (s.storage cur).data, p = .cell c
  | .resetGet this cur _ i, p => this = o → ∃ c ∈ (s.storage cur).data.drop i, p = .cell c
  | .resetClear this, _ => this ≠ o
  | _, _ => True

theorem unread_congr (storage : s'.storage = s.storage) {pc : PC O} (unread : s'.Unread o pc p) :
    s.Unread o pc p := by
  cases pc with
  | valueGet | resetSize | resetGet =>
      rw [Unread, storage] at unread
      exact unread
  | load site | loadSet site | loadCheck site => cases site <;> exact unread
  | _ => exact unread

theorem read_congr (storage : s'.storage = s.storage) {pc : PC O} (read : s'.Read o pc p) :
    s.Read o pc p := by
  cases pc with
  | valueSize | valueGet | resetSize | resetGet =>
      rw [Read, storage] at read
      exact read
  | load site | loadSet site | loadCheck site => cases site <;> exact read
  | _ => exact read

/-- A thread that is in no call of a round. -/
structure Apart (o : O) (pc : PC O) : Prop where
  reading : pc.reading ≠ some o
  resetting : pc.resetting ≠ some o

theorem Apart.carries {pc : PC O} (apart : Apart o pc) : pc.carries o = 0 := by
  have reading := apart.reading
  cases pc <;> first | rfl | exact if_neg (by rintro rfl; exact reading rfl)

theorem Apart.looks {pc : PC O} (apart : Apart o pc) : s.looks o pc = none := by
  have reading := apart.reading
  cases pc <;> first | rfl | exact if_neg (by rintro rfl; exact reading rfl)

theorem Apart.unread {pc : PC O} (apart : Apart o pc) : ¬ s.Unread o pc p := by
  have reading := apart.reading
  have resetting := apart.resetting
  intro unread
  cases pc with
  | load site | loadSet site | loadCheck site =>
      cases site with
      | reset this => exact resetting (by rw [← unread.1]; rfl)
      | _ => exact unread
  | valueBase this | resetClear this =>
      first | exact reading (by rw [← unread]; rfl) | exact resetting (by rw [← unread]; rfl)
  | _ => first
    | exact unread
    | exact reading (by rw [← unread.1]; rfl)
    | exact resetting (by rw [← unread.1]; rfl)

theorem Apart.read {pc : PC O} (apart : Apart o pc) : s.Read o pc p := by
  have reading := apart.reading
  have resetting := apart.resetting
  cases pc with
  | load site | loadSet site | loadCheck site =>
      cases site with
      | reset this => exact fun same => absurd (by rw [← same]; rfl) resetting
      | _ => trivial
  | _ => first
    | trivial
    | exact fun same => absurd (by rw [← same]; rfl) reading
    | exact fun same => absurd (by rw [← same]; rfl) resetting

/-! ## The accounts -/

/-- The accounts agree with what is there. -/
structure Kept (s : State T O) (o : O) (account : Place O → Account) (during : Nat) : Prop where
  layout : s.Layout
  accounted : s.Accounted
  small : started s.log o < 2 ^ 63
  exact : ∀ p ∈ s.places o, (account p).taken + (s.word p).toNat = (account p).put
  unused : ∀ p, p ∉ s.places o → account p = .zero
  sum : ((s.places o).map fun p => (account p).put).sum = swapped s.log o
  during : ((s.places o).map fun p => (account p).missed).sum = during

/-- Changing one account changes a sum over all of them there. -/
theorem sum_account (account : Place O → Account) {l : List (Place O)} (nodup : l.Nodup)
    (member : p ∈ l) (f : Account → Nat) (a : Account) :
    (l.map fun q => f (Function.update account p a q)).sum + f (account p) =
      (l.map fun q => f (account q)).sum + f a := by
  have changed := sum_update nodup member (fun q => f (account q)) (f a)
  rw [← changed]
  congr 2
  refine List.map_congr_left fun q _ => ?_
  by_cases same : q = p
  · rw [same, Function.update_self, if_pos rfl]
  · rw [Function.update_of_ne same, if_neg same]

/-- New places have empty accounts. -/
theorem sum_grown {l l' : List (Place O)} (grows : l <+: l') (nodup : l'.Nodup) (f : Account → Nat)
    (empty : f .zero = 0) (unused : ∀ p, p ∉ l → account p = .zero) :
    (l'.map fun p => f (account p)).sum = (l.map fun p => f (account p)).sum := by
  obtain ⟨rest, rfl⟩ := grows
  have zero : (rest.map fun p => f (account p)).sum = 0 := by
    refine List.sum_eq_zero fun x inMap => ?_
    obtain ⟨p, inRest, rfl⟩ := List.mem_map.1 inMap
    rw [unused p fun member => List.disjoint_of_nodup_append nodup member inRest, empty]
  rw [List.map_append, List.sum_append, zero, add_zero]

theorem Kept.keeps (kept : s.Kept o account during) (layout : s'.Layout) (accounted : s'.Accounted)
    (grows : s.places o <+: s'.places o) (same : ∀ p ∈ s.places o, s'.word p = s.word p)
    (new : ∀ p ∈ s'.places o, p ∉ s.places o → s'.word p = 0)
    (counts : SameCounts o s.log s'.log) : s'.Kept o account during where
  layout := layout
  accounted := accounted
  small := counts.started ▸ kept.small
  exact p member := by
    by_cases old : p ∈ s.places o
    · rw [same p old]
      exact kept.exact p old
    · rw [new p member old, kept.unused p old]
      rfl
  unused p outside := kept.unused p fun old => outside (grows.subset old)
  sum := by
    rw [sum_grown grows (layout.places_nodup o) Account.put rfl kept.unused, kept.sum,
      counts.swapped]
  during := by
    rw [sum_grown grows (layout.places_nodup o) Account.missed rfl kept.unused, kept.during]

theorem Kept.put_le (kept : s.Kept o account during) (member : p ∈ s.places o) :
    (account p).put ≤ swapped s.log o := by
  rw [← kept.sum]
  exact List.single_le_sum (fun x _ => Nat.zero_le x) _
    (List.mem_map_of_mem (f := fun p => (account p).put) member)

theorem Kept.puts {v : Word} (kept : s.Kept o account during) (layout : s'.Layout)
    (accounted : s'.Accounted) (member : p ∈ s.places o) (places : s'.places o = s.places o)
    (word : ∀ q, s'.word q = if q = p then s.word p + v else s.word q)
    (swaps : swapped s'.log o = swapped s.log o + v.toNat)
    (starts : started s'.log o = started s.log o) (round : Bool) :
    s'.Kept o (Function.update account p ((account p).deposit v.toNat round))
      (during + if round = true then v.toNat else 0) where
  layout := layout
  accounted := accounted
  small := starts ▸ kept.small
  exact q inPlaces := by
    rw [places] at inPlaces
    rw [word]
    by_cases same : q = p
    · subst same
      have whole := kept.exact q member
      have most := kept.put_le member
      have below := swapped_le_started s'.log o
      have small := kept.small
      rw [if_pos rfl, Function.update_self, toNat_add_of_small (n := swapped s.log o) (by omega)
        (by omega)]
      show (account q).taken + _ = (account q).put + v.toNat
      omega
    · rw [if_neg same, Function.update_of_ne same]
      exact kept.exact q inPlaces
  unused q outside := by
    rw [places] at outside
    rw [Function.update_of_ne (by rintro rfl; exact outside member)]
    exact kept.unused q outside
  sum := by
    have changed := sum_account account (kept.layout.places_nodup o) member Account.put
      ((account p).deposit v.toNat round)
    have now : ((account p).deposit v.toNat round).put = (account p).put + v.toNat := rfl
    rw [places, swaps, ← kept.sum]
    omega
  during := by
    have changed := sum_account account (kept.layout.places_nodup o) member
      Account.missed ((account p).deposit v.toNat round)
    have now : ((account p).deposit v.toNat round).missed =
        (account p).missed + if round = true then v.toNat else 0 := rfl
    rw [places, ← kept.during]
    omega

theorem Kept.zeros (kept : s.Kept o account during) (layout : s'.Layout)
    (accounted : s'.Accounted) (member : p ∈ s.places o) (places : s'.places o = s.places o)
    (word : ∀ q, s'.word q = if q = p then 0 else s.word q)
    (counts : SameCounts o s.log s'.log) :
    s'.Kept o (Function.update account p ((account p).clear (s.word p).toNat)) during where
  layout := layout
  accounted := accounted
  small := counts.started ▸ kept.small
  exact q inPlaces := by
    rw [places] at inPlaces
    rw [word]
    by_cases same : q = p
    · subst same
      rw [if_pos rfl, Function.update_self]
      exact kept.exact q member
    · rw [if_neg same, Function.update_of_ne same]
      exact kept.exact q inPlaces
  unused q outside := by
    rw [places] at outside
    rw [Function.update_of_ne (by rintro rfl; exact outside member)]
    exact kept.unused q outside
  sum := by
    have changed := sum_account account (kept.layout.places_nodup o) member Account.put
      ((account p).clear (s.word p).toNat)
    rw [places, counts.swapped, ← kept.sum]
    exact Nat.add_right_cancel changed
  during := by
    have changed := sum_account account (kept.layout.places_nodup o) member
      Account.missed ((account p).clear (s.word p).toNat)
    rw [places, ← kept.during]
    exact Nat.add_right_cancel changed

/-- Looking at a place changes nothing but what has been read. -/
theorem Kept.look (kept : s.Kept o account during) (member : p ∈ s.places o) (v : Nat) :
    s.Kept o (Function.update account p ((account p).look v)) during where
  layout := kept.layout
  accounted := kept.accounted
  small := kept.small
  exact q inPlaces := by
    by_cases same : q = p
    · subst same
      rw [Function.update_self]
      exact kept.exact q member
    · rw [Function.update_of_ne same]
      exact kept.exact q inPlaces
  unused q outside := by
    rw [Function.update_of_ne (by rintro rfl; exact outside member)]
    exact kept.unused q outside
  sum := by
    have changed := sum_account account (kept.layout.places_nodup o) member Account.put
      ((account p).look v)
    rw [← kept.sum]
    exact Nat.add_right_cancel changed
  during := by
    have changed := sum_account account (kept.layout.places_nodup o) member
      Account.missed ((account p).look v)
    rw [← kept.during]
    exact Nat.add_right_cancel changed

/-! ## The rounds -/

/-- How far the collector has come in its round. -/
structure Inside (s : State T O) (o : O) (account : Place O → Account) (collected : Nat)
    (pc : PC O) : Prop where
  read : collected + pc.carries o = ((s.places o).map fun p => (account p).read).sum
  settled : ∀ p ∈ s.places o, s.Unread o pc p → (account p).Settled
  seen : ∀ p ∈ s.places o, s.Read o pc p → (account p).Seen

/-- Between rounds every place is settled; in a round it is as its thread has left it. -/
structure Stands (s : State T O) (o : O) (account : Place O → Account) (turn : Option T)
    (collected : Nat) : Prop where
  turns : ∀ t, ¬ Apart o (s.pc t) → turn = some t
  between : turn = none → collected = ((s.places o).map fun p => (account p).read).sum ∧
    ∀ p ∈ s.places o, (account p).Settled
  inside : ∀ t, turn = some t → s.Inside o account collected (s.pc t)

theorem Extends.unread (grows : Extends s s') {pc : PC O} (here : s.Local pc)
    (unread : s'.Unread o pc p) : s.Unread o pc p := by
  cases pc with
  | valueGet this ret cur len i =>
      rw [Unread, grows.data cur here.1.1] at unread
      exact unread
  | resetSize this cur =>
      rw [Unread, grows.data cur here.1] at unread
      exact unread
  | resetGet this cur len i =>
      rw [Unread, grows.data cur here.1.1] at unread
      exact unread
  | load site | loadSet site | loadCheck site => cases site <;> exact unread
  | _ => exact unread

theorem Extends.read (grows : Extends s s') {pc : PC O} (here : s.Local pc)
    (read : s'.Read o pc p) : s.Read o pc p := by
  cases pc with
  | valueSize this ret cur =>
      rw [Read, grows.data cur here.1] at read
      exact read
  | valueGet this ret cur len i =>
      rw [Read, grows.data cur here.1.1] at read
      exact read
  | resetSize this cur =>
      rw [Read, grows.data cur here.1] at read
      exact read
  | resetGet this cur len i =>
      rw [Read, grows.data cur here.1.1] at read
      exact read
  | load site | loadSet site | loadCheck site => cases site <;> exact read
  | _ => exact read

/-- No thread comes into a round by a step. -/
theorem access_apart {pc : PC O} (access : Access s t pc e nx) (apart : Apart o pc) :
    Apart o (Next.pc nx) := by
  refine ⟨fun reading => apart.reading (Watched.access_reading access reading), fun resetting => ?_⟩
  have before : pc.resetting ≠ some o := apart.resetting
  cases access <;> first | exact before resetting | skip
  case slowLate | slowRehash | slowFull | slowRetire =>
      simp only [slowTop, Next.pc_goto] at resetting
      split at resetting <;> cases resetting
  case slowRaced f cur next raced =>
      cases stripes : s.stripes f.this <;>
        simp only [stripes, slowTop, Next.pc_goto] at resetting <;>
        first | cases resetting | (split at resetting <;> cases resetting)
  case loadSame site =>
      cases site <;> cases stripes : s.stripes _ <;> rw [stripes] at resetting <;>
        first | exact before resetting | cases resetting
  case load site | loadSet site cur | loadAgain site cur =>
      cases site <;> exact before resetting
  case valueSize | valueGet =>
      simp only [valueLoop, Next.pc_goto] at resetting
      split at resetting <;> cases resetting
  case resetSize | resetGet =>
      simp only [resetLoop, Next.pc_goto] at resetting
      split at resetting <;> exact before resetting
  all_goals cases resetting

/-- Only a running `reset` of `o` stores zeros there. -/
theorem Apart.zeros (apart : Apart o (s.pc t)) (layout : s.Layout)
    (access : Access s t (s.pc t) e nx) : s.zeros o e = none := by
  by_cases writing : (s.pc t).writes = some o
  · have resetting := apart.resetting
    generalize s.pc t = pc at access writing resetting
    cases access <;> first | rfl | exact absurd writing resetting
  · exact (layout.untouched access writing).2

/-- Cells that come to the table are empty, and no account changes. -/
theorem Inside.moved {collected : Nat} {pc pc' : PC O} (inside : s.Inside o account collected pc)
    (grows : s.places o <+: s'.places o) (nodup : (s'.places o).Nodup)
    (unused : ∀ p, p ∉ s.places o → account p = .zero) (carries : pc'.carries o = pc.carries o)
    (unread : ∀ p ∈ s'.places o, s'.Unread o pc' p → s.Unread o pc p)
    (read : ∀ p ∈ s'.places o, s'.Read o pc' p → s.Read o pc p) :
    s'.Inside o account collected pc' where
  read := by
    rw [carries, inside.read, sum_grown grows nodup Account.read rfl unused]
  settled p member now := by
    by_cases old : p ∈ s.places o
    · exact inside.settled p old (unread p member now)
    · exact unused p old ▸ Account.settled_zero
  seen p member now := by
    by_cases old : p ∈ s.places o
    · exact inside.seen p old (read p member now)
    · exact unused p old ▸ Account.seen_zero

theorem Inside.puts {collected : Nat} {pc pc' : PC O} {v : Nat}
    (inside : s.Inside o account collected pc) (nodup : (s.places o).Nodup)
    (member : p ∈ s.places o) (places : s'.places o = s.places o)
    (carries : pc'.carries o = pc.carries o) (unread : ∀ p, s'.Unread o pc' p → s.Unread o pc p)
    (read : ∀ p, s'.Read o pc' p → s.Read o pc p) :
    s'.Inside o (Function.update account p ((account p).deposit v true)) collected pc' where
  read := by
    have changed := sum_account account nodup member Account.read
      ((account p).deposit v true)
    rw [carries, inside.read, places]
    exact (Nat.add_right_cancel changed).symm
  settled q inPlaces now := by
    have before := inside.settled q (places ▸ inPlaces) (unread q now)
    by_cases same : q = p
    · subst same
      rw [Function.update_self]
      exact before.deposit v true
    · rwa [Function.update_of_ne same]
  seen q inPlaces now := by
    have before := inside.seen q (places ▸ inPlaces) (read q now)
    by_cases same : q = p
    · subst same
      rw [Function.update_self]
      exact before.deposit v
    · rwa [Function.update_of_ne same]

section Turn

variable {turn : Option T} {collected collected' : Nat} {account' : Place O → Account}

/-- The collector has moved on. -/
theorem Stands.onward (stands : s.Stands o account turn collected) (mine : turn = some t)
    (others : ∀ u, u ≠ t → s'.pc u = s.pc u)
    (inside : s'.Inside o account' collected' (s'.pc t)) :
    s'.Stands o account' turn collected' where
  turns u busy := by
    by_cases same : u = t
    · rw [same, mine]
    · rw [others u same] at busy
      exact stands.turns u busy
  between none_ := by rw [mine] at none_; cases none_
  inside u its := by
    cases Option.some.inj (mine.symm.trans its)
    exact inside

/-- The round is over. -/
theorem Stands.ends (stands : s.Stands o account turn collected) (mine : turn = some t)
    (others : ∀ u, u ≠ t → s'.pc u = s.pc u) (apart : Apart o (s'.pc t))
    (read : collected = ((s'.places o).map fun p => (account' p).read).sum)
    (settled : ∀ p ∈ s'.places o, (account' p).Settled) :
    s'.Stands o account' none collected where
  turns u busy := by
    by_cases same : u = t
    · exact absurd (same ▸ apart) busy
    · rw [others u same] at busy
      exact absurd (Option.some.inj (mine.symm.trans (stands.turns u busy))).symm same
  between _ := ⟨read, settled⟩
  inside u its := by cases its

/-- The thread whose turn it may be stays where it is, or moves where it knows the same. -/
theorem Stands.moved (stands : s.Stands o account turn collected)
    (grows : s.places o <+: s'.places o) (nodup : (s'.places o).Nodup)
    (unused : ∀ p, p ∉ s.places o → account p = .zero)
    (turns : ∀ t, ¬ Apart o (s'.pc t) → turn = some t)
    (same : ∀ u, turn = some u → (s'.pc u).carries o = (s.pc u).carries o ∧
      (∀ p, s'.Unread o (s'.pc u) p → s.Unread o (s.pc u) p) ∧
      ∀ p, s'.Read o (s'.pc u) p → s.Read o (s.pc u) p) :
    s'.Stands o account turn collected where
  turns := turns
  between none_ := by
    obtain ⟨read, settled⟩ := stands.between none_
    refine ⟨by rw [read, sum_grown grows nodup Account.read rfl unused], fun p _ => ?_⟩
    by_cases old : p ∈ s.places o
    · exact settled p old
    · exact unused p old ▸ Account.settled_zero
  inside u its :=
    have ⟨carries, unread, read⟩ := same u its
    (stands.inside u its).moved grows nodup unused carries (fun p _ => unread p) fun p _ => read p

theorem Stands.puts {v : Nat} (stands : s.Stands o account turn collected)
    (nodup : (s.places o).Nodup) (member : p ∈ s.places o) (places : s'.places o = s.places o)
    (turns : ∀ t, ¬ Apart o (s'.pc t) → turn = some t)
    (same : ∀ u, turn = some u → (s'.pc u).carries o = (s.pc u).carries o ∧
      (∀ p, s'.Unread o (s'.pc u) p → s.Unread o (s.pc u) p) ∧
      ∀ p, s'.Read o (s'.pc u) p → s.Read o (s.pc u) p) :
    s'.Stands o (Function.update account p ((account p).deposit v turn.isSome)) turn collected where
  turns := turns
  between none_ := by
    obtain ⟨read, settled⟩ := stands.between none_
    refine ⟨?_, fun q inPlaces => ?_⟩
    · have changed := sum_account account nodup member Account.read
        ((account p).deposit v turn.isSome)
      rw [read, places]
      exact (Nat.add_right_cancel changed).symm
    · by_cases here : q = p
      · subst here
        rw [Function.update_self]
        exact (settled q member).deposit v _
      · rw [Function.update_of_ne here]
        exact settled q (places ▸ inPlaces)
  inside u its := by
    obtain ⟨carries, unread, read⟩ := same u its
    rw [its]
    exact (stands.inside u its).puts nodup member places carries unread read

end Turn

/-! ## A step of the collector -/

section Round

variable {collected : Nat} {ret : Word} {cur i : Nat}

/-- A step that neither adds nor stores zero. -/
theorem Kept.quiet (kept : s.Kept o account during) (access : Access s t (s.pc t) e nx)
    (puts : s.puts o e = none) (zeros : s.zeros o e = none) :
    (s.after t e nx).Kept o account during ∧ s.places o <+: (s.after t e nx).places o := by
  have layout := kept.layout.after access
  have accounted := kept.accounted.after kept.layout access
  cases access_changes kept.layout kept.accounted access o with
  | keeps _ _ grows same new counts =>
      exact ⟨kept.keeps layout accounted grows same new counts, grows⟩
  | puts p v some_ => rw [puts] at some_; cases some_
  | zeros p _ some_ => rw [zeros] at some_; cases some_

theorem Kept.cells_nodup (kept : s.Kept o account during) (within : s.Within o cur) :
    (s.storage cur).data.Nodup :=
  kept.layout.nodup cur within.1

theorem get_eq {st : Storage} (inside : i < st.data.length) : st.get i = st.data[i] := by
  simp [Storage.get, List.getElem?_eq_getElem inside]

/-- What is left of the cells when one more has been visited. -/
theorem mem_drop_succ {l : List Nat} (nodup : l.Nodup) (inside : i < l.length) {c : Nat} :
    c ∈ l.drop (i + 1) ↔ c ∈ l.drop i ∧ c ≠ l[i] := by
  have split : l.drop i = l[i] :: l.drop (i + 1) := List.drop_eq_getElem_cons inside
  have fresh : l[i] ∉ l.drop (i + 1) := by
    have nodup' := (List.drop_sublist i l).nodup nodup
    rw [split] at nodup'
    exact (List.nodup_cons.1 nodup').1
  rw [split, List.mem_cons]
  constructor
  · intro later
    exact ⟨.inr later, by rintro rfl; exact fresh later⟩
  · rintro ⟨here | later, other⟩
    · exact absurd here other
    · exact later

theorem not_mem_take {l : List Nat} (nodup : l.Nodup) {c : Nat} (left : c ∈ l.drop i) :
    c ∉ l.take i := by
  intro visited
  have whole : (l.take i ++ l.drop i).Nodup := by rwa [List.take_append_drop]
  exact List.disjoint_of_nodup_append whole visited left

theorem Inside.look_base (kept : s.Kept o account during)
    (inside : s.Inside o account collected (.valueBase o)) :
    s.Inside o (Function.update account (.base o) ((account (.base o)).look (s.base o).toNat))
      collected (.valueLoad o (s.base o)) where
  read := by
    have changed := sum_account account (kept.layout.places_nodup o)
      (mem_places_base.2 rfl) Account.read ((account (.base o)).look (s.base o).toNat)
    have now : ((account (.base o)).look (s.base o).toNat).read =
        (account (.base o)).read + (s.base o).toNat := rfl
    have before := inside.read
    simp only [PC.carries, if_true] at before ⊢
    omega
  settled p member unread := by
    rw [Function.update_of_ne unread.2]
    exact inside.settled p member rfl
  seen p member read := by
    cases read rfl
    rw [Function.update_self]
    exact (inside.settled _ member rfl).look (kept.exact _ member)

/-- Every place has been read or not. -/
theorem Kept.unread_or_read (kept : s.Kept o account during) {pc : PC O} (here : s.Local pc)
    (member : p ∈ s.places o) : s.Unread o pc p ∨ s.Read o pc p := by
  cases pc with
  | valueBase this | resetClear this => exact Decidable.em (this = o)
  | valueLoad this | valueSet this | valueCheck this =>
      by_cases same : this = o
      · by_cases isBase : p = .base o
        · exact .inr fun _ => isBase
        · exact .inl ⟨same, isBase⟩
      · exact .inr fun here => absurd here same
  | valueSize this ret cur =>
      by_cases same : this = o
      · by_cases isBase : p = .base o
        · exact .inr fun _ c isCell => by cases isBase.symm.trans isCell
        · exact .inl ⟨same, isBase⟩
      · exact .inr fun here => absurd here same
  | valueGet this ret cur len i =>
      by_cases same : this = o
      · subst same
        cases p with
        | base o' => exact .inr fun _ c isCell => by cases isCell
        | cell c =>
            by_cases left : c ∈ (s.storage cur).data.drop i
            · refine .inl ⟨rfl, by simp, fun d isCell => ?_⟩
              cases isCell
              exact not_mem_take (kept.cells_nodup here.1) left
            · refine .inr fun _ d isCell => ?_
              cases isCell
              exact left
      · exact .inr fun here => absurd here same
  | load site | loadSet site | loadCheck site =>
      cases site with
      | reset this =>
          by_cases same : this = o
          · by_cases isBase : p = .base o
            · exact .inl ⟨same, isBase⟩
            · exact .inr fun _ => isBase
          · exact .inr fun here => absurd here same
      | _ => exact .inr trivial
  | resetSize this cur =>
      by_cases same : this = o
      · by_cases left : ∃ c ∈ (s.storage cur).data, p = .cell c
        · exact .inr fun _ => left
        · exact .inl ⟨same, fun c isCell inData => left ⟨c, inData, isCell⟩⟩
      · exact .inr fun here => absurd here same
  | resetGet this cur len i =>
      by_cases same : this = o
      · by_cases left : ∃ c ∈ (s.storage cur).data.drop i, p = .cell c
        · exact .inr fun _ => left
        · exact .inl ⟨same, fun c isCell inData => left ⟨c, inData, isCell⟩⟩
      · exact .inr fun here => absurd here same
  | _ => exact .inr trivial

theorem Inside.settled_or_seen (kept : s.Kept o account during) {pc : PC O}
    (inside : s.Inside o account collected pc) (here : s.Local pc) :
    ∀ p ∈ s.places o, (account p).Settled ∨ (account p).Seen := fun p member =>
  (kept.unread_or_read here member).imp (inside.settled p member) (inside.seen p member)

theorem Inside.look_cell (kept : s.Kept o account during)
    (inside : s.Inside o account collected (.valueGet o ret cur (s.storage cur).size i))
    (within : s.Within o cur) (more : i < (s.storage cur).size) {c : Nat}
    (get : (s.storage cur).get i = c) :
    s.Inside o (Function.update account (.cell c) ((account (.cell c)).look (s.cell c).toNat))
      collected (valueLoop o (ret + s.cell c) cur (s.storage cur).size (i + 1)) := by
  have nodup := kept.cells_nodup within
  have inData : i < (s.storage cur).data.length := by rwa [Storage.length_data]
  rw [get_eq inData] at get
  have member : (.cell c : Place O) ∈ s.places o :=
    mem_places_cell.2 (within.2.subset (get ▸ List.getElem_mem inData))
  have left : c ∈ (s.storage cur).data.drop i := by
    rw [List.drop_eq_getElem_cons inData, get]
    exact List.mem_cons_self ..
  have unread : (account (.cell c)).Settled := by
    refine inside.settled _ member ⟨rfl, by simp, fun d same => ?_⟩
    cases same
    exact not_mem_take nodup left
  have seen : ((account (.cell c)).look (s.cell c).toNat).Seen := unread.look (kept.exact _ member)
  have looked := kept.look member (s.cell c).toNat
  -- so far no more has been read than was put in, so the sum does not wrap
  have changed := sum_account account (kept.layout.places_nodup o) member Account.read
    ((account (.cell c)).look (s.cell c).toNat)
  have now : ((account (.cell c)).look (s.cell c).toNat).read =
      (account (.cell c)).read + (s.cell c).toNat := rfl
  have bound : ((s.places o).map fun p => (Function.update account (.cell c)
      ((account (.cell c)).look (s.cell c).toNat) p).read).sum ≤ swapped s.log o := by
    rw [← looked.sum]
    refine Theory.sum_read_le looked.exact fun p inPlaces => ?_
    by_cases same : p = .cell c
    · subst same
      rw [Function.update_self]
      exact .inr seen
    · rw [Function.update_of_ne same]
      exact inside.settled_or_seen kept ⟨within, more, rfl⟩ p inPlaces
  have before := inside.read
  have most := swapped_le_started s.log o
  have small := kept.small
  simp only [PC.carries, if_true] at before
  have sum : (ret + s.cell c).toNat = ret.toNat + (s.cell c).toNat :=
    BitVec.toNat_add_of_lt (by omega)
  have stays : ∀ p ∈ s.places o, (∀ d, p = .cell d → d ∉ (s.storage cur).data.drop (i + 1)) →
      (Function.update account (.cell c) ((account (.cell c)).look (s.cell c).toNat) p).Seen := by
    intro p inPlaces visited
    by_cases same : p = .cell c
    · subst same
      rw [Function.update_self]
      exact seen
    · rw [Function.update_of_ne same]
      refine inside.seen p inPlaces fun _ d isCell inDrop => visited d isCell ?_
      refine (mem_drop_succ nodup inData).2 ⟨inDrop, ?_⟩
      rintro rfl
      exact same (isCell.trans (congrArg _ get))
  simp only [valueLoop]
  split
  · refine ⟨?_, fun p inPlaces unread => ?_, fun p inPlaces read => stays p inPlaces (read rfl)⟩
    · simp only [PC.carries, if_true, sum]
      omega
    · obtain ⟨-, notBase, ahead⟩ := unread
      have same : p ≠ .cell c := by
        rintro rfl
        refine ahead c rfl ?_
        rw [List.take_succ_eq_append_getElem inData, get]
        simp
      rw [Function.update_of_ne same]
      refine inside.settled p inPlaces ⟨rfl, notBase, fun d isCell visited => ahead d isCell ?_⟩
      exact (List.take_subset_take_left _ (Nat.le_succ i)) visited
  · rename_i done
    refine ⟨?_, fun p _ unread => False.elim unread,
      fun p inPlaces _ => stays p inPlaces ?_⟩
    · simp only [PC.carries, if_true, sum]
      omega
    · intro d _ left
      rw [List.drop_eq_nil_of_le (by rw [Storage.length_data]; omega)] at left
      cases left

theorem Inside.clear_base (kept : s.Kept o account during)
    (inside : s.Inside o account collected (.resetBase o)) :
    s.Inside o (Function.update account (.base o) ((account (.base o)).clear (s.base o).toNat))
      collected (.load (.reset o)) where
  read := by
    have changed := sum_account account (kept.layout.places_nodup o)
      (mem_places_base.2 rfl) Account.read ((account (.base o)).clear (s.base o).toNat)
    exact inside.read.trans (Nat.add_right_cancel changed).symm
  settled p member unread := by
    cases unread.2
    rw [Function.update_self]
    exact (inside.seen _ member trivial).clear (kept.exact _ member)
  seen p member read := by
    rw [Function.update_of_ne (read rfl)]
    exact inside.seen p member trivial

theorem Inside.clear_cell (kept : s.Kept o account during)
    (inside : s.Inside o account collected (.resetGet o cur (s.storage cur).size i))
    (within : s.Within o cur) (more : i < (s.storage cur).size) {c : Nat}
    (get : (s.storage cur).get i = c) :
    s.Inside o (Function.update account (.cell c) ((account (.cell c)).clear (s.cell c).toNat))
      collected (resetLoop o cur (s.storage cur).size (i + 1)) := by
  have nodup := kept.cells_nodup within
  have inData : i < (s.storage cur).data.length := by rwa [Storage.length_data]
  rw [get_eq inData] at get
  have member : (.cell c : Place O) ∈ s.places o :=
    mem_places_cell.2 (within.2.subset (get ▸ List.getElem_mem inData))
  have left : c ∈ (s.storage cur).data.drop i := by
    rw [List.drop_eq_getElem_cons inData, get]
    exact List.mem_cons_self ..
  have cleared : ((account (.cell c)).clear (s.cell c).toNat).Settled :=
    (inside.seen _ member fun _ => ⟨c, left, rfl⟩).clear (kept.exact _ member)
  have read : collected = ((s.places o).map fun p => (Function.update account (.cell c)
      ((account (.cell c)).clear (s.cell c).toNat) p).read).sum := by
    have changed := sum_account account (kept.layout.places_nodup o) member
      Account.read ((account (.cell c)).clear (s.cell c).toNat)
    exact inside.read.trans (Nat.add_right_cancel changed).symm
  have settled : ∀ p ∈ s.places o, (∀ d, p = .cell d → d ∉ (s.storage cur).data.drop (i + 1)) →
      (Function.update account (.cell c) ((account (.cell c)).clear (s.cell c).toNat)
        p).Settled := by
    intro p inPlaces visited
    by_cases same : p = .cell c
    · subst same
      rw [Function.update_self]
      exact cleared
    · rw [Function.update_of_ne same]
      refine inside.settled p inPlaces ⟨rfl, fun d isCell inDrop => visited d isCell ?_⟩
      refine (mem_drop_succ nodup inData).2 ⟨inDrop, ?_⟩
      rintro rfl
      exact same (isCell.trans (congrArg _ get))
  simp only [resetLoop]
  split
  · refine ⟨read, fun p inPlaces unread => settled p inPlaces unread.2, fun p inPlaces read => ?_⟩
    obtain ⟨d, inDrop, rfl⟩ := read rfl
    obtain ⟨before, other⟩ := (mem_drop_succ nodup inData).1 inDrop
    have different : (.cell d : Place O) ≠ .cell c := by
      intro same
      cases same
      exact other get.symm
    rw [Function.update_of_ne different]
    exact inside.seen _ inPlaces fun _ => ⟨d, before, rfl⟩
  · refine ⟨read, fun p inPlaces _ => settled p inPlaces fun d _ left => ?_,
      fun p _ read => absurd rfl read⟩
    rw [List.drop_eq_nil_of_le (by rw [Storage.length_data]; omega)] at left
    cases left

end Round

end State

/-! ## The machine with the accounts -/

/-- The machine, with the accounts of one object: `collected` is the sum of what its finished calls
of `value` have returned, `during` what has been added to it while a round was on. -/
structure Collected (T O : Type) where
  state : State T O
  account : Place O → Account
  turn : Option T
  collected : Nat
  during : Nat

namespace Collected

variable {c c' : Collected T O} {t u : T} {e : Effect O} {nx : Next O} {o : O}

def init (hashCode : T → Word) : Collected T O := ⟨.init hashCode, fun _ => .zero, none, 0, 0⟩

/-- The accounts after a step with effect `e` from `pc`. -/
def post (c : Collected T O) (o : O) (e : Effect O) (pc : PC O) : Place O → Account :=
  match c.state.puts o e, c.state.zeros o e, c.state.looks o pc with
  | some (p, v), _, _ =>
      Function.update c.account p ((c.account p).deposit v.toNat c.turn.isSome)
  | none, some p, _ =>
      Function.update c.account p ((c.account p).clear (c.state.word p).toNat)
  | none, none, some p =>
      Function.update c.account p ((c.account p).look (c.state.word p).toNat)
  | none, none, none => c.account

/-- What a step of thread `t` with effect `e`, which leads to `s'`, is noted as. A round begins
with a call of `value` and ends when the call of `reset` returns. -/
def noteStep (o : O) (c : Collected T O) (t : T) (e : Effect O) (s' : State T O) :
    Collected T O where
  state := s'
  account := c.post o e (c.state.pc t)
  turn := if (c.state.pc t).resetting = some o ∧ s'.pc t = .idle then none else c.turn
  collected :=
    if (c.state.pc t).reading = some o ∧ s'.pc t = .idle then c.collected + (s'.result t).toNat
    else c.collected
  during := c.during + match c.state.puts o e with
    | some (_, v) => if c.turn.isSome = true then v.toNat else 0
    | none => 0

section Noted

variable {s' : State T O} {pc : PC O} {p : Place O} {v : Word}

theorem post_puts (puts : c.state.puts o e = some (p, v)) : c.post o e pc =
    Function.update c.account p ((c.account p).deposit v.toNat c.turn.isSome) := by
  simp only [post, puts]

theorem post_zeros (puts : c.state.puts o e = none) (zeros : c.state.zeros o e = some p) :
    c.post o e pc = Function.update c.account p ((c.account p).clear (c.state.word p).toNat) := by
  simp only [post, puts, zeros]

theorem post_looks (puts : c.state.puts o e = none) (zeros : c.state.zeros o e = none)
    (looks : c.state.looks o pc = some p) :
    c.post o e pc = Function.update c.account p ((c.account p).look (c.state.word p).toNat) := by
  simp only [post, puts, zeros, looks]

theorem post_none (puts : c.state.puts o e = none) (zeros : c.state.zeros o e = none)
    (looks : c.state.looks o pc = none) : c.post o e pc = c.account := by
  simp only [post, puts, zeros, looks]

/-- The call goes on. -/
theorem noteStep_goes (puts : c.state.puts o e = none) (goes : s'.pc t ≠ .idle) :
    c.noteStep o t e s' = { c with state := s', account := c.post o e (c.state.pc t) } := by
  simp only [noteStep, puts, goes, and_false, if_false, Nat.add_zero]

end Noted

def note (o : O) (c : Collected T O) (s' : State T O) : Action T O → Collected T O
  | .value t this => { c with state := s', turn := if this = o then some t else c.turn }
  | .step t =>
      match c.state.plan t (c.state.pc t) with
      | some (e, _) => c.noteStep o t e s'
      | none => { c with state := s' }
  | _ => { c with state := s' }

/-- Take an action and note it. -/
def next [Fintype T] (o : O) (c : Collected T O) (a : Action T O) : Option (Collected T O) :=
  (c.state.next a).map fun s' => c.note o s' a

/-- The deltas are not negative and stay below 2^63 in total. Rounds do not overlap: `value` is
called when no round is on, and `reset` by the thread whose round it is. -/
def Orderly (o : O) (c : Collected T O) : Action T O → Prop
  | .add _ this value => this = o → started c.state.log o + value.toNat < 2 ^ 63
  | .value _ this => this = o → c.turn = none
  | .reset t this => this = o → c.turn = some t
  | _ => True

instance (o : O) (c : Collected T O) : (a : Action T O) → Decidable (Orderly o c a)
  | .add _ this value =>
      inferInstanceAs (Decidable (this = o → started c.state.log o + value.toNat < 2 ^ 63))
  | .value _ this => inferInstanceAs (Decidable (this = o → c.turn = none))
  | .reset t this => inferInstanceAs (Decidable (this = o → c.turn = some t))
  | .make _ _ | .step _ | .reclaim _ => isTrue trivial

structure Sound (o : O) (c : Collected T O) : Prop where
  kept : c.state.Kept o c.account c.during
  stands : c.state.Stands o c.account c.turn c.collected

theorem sound_init (hashCode : T → Word) : Sound o (init hashCode : Collected T O) where
  kept :=
    { layout := State.layout_init hashCode
      accounted := (State.books_init hashCode o).accounted
      small := by simp [init, State.init, started, sumWhere]
      exact := by simp [init, State.init, State.places, State.cells, State.word, Account.zero]
      unused := fun _ _ => rfl
      sum := by simp [init, State.init, State.places, State.cells, Account.zero, swapped, sumWhere]
      during := by simp [init, State.init, State.places, State.cells, Account.zero] }
  stands :=
    { turns := fun t busy => absurd ⟨by simp [init, State.init, PC.reading],
        by simp [init, State.init, PC.resetting]⟩ busy
      between := fun _ => ⟨by simp [init, State.init, State.places, State.cells, Account.zero],
        fun _ _ => Account.settled_zero⟩
      inside := fun t its => by cases its }

/-- A step of a thread that is in no call of a round. -/
theorem Sound.apart (sound : Sound o c) (apart : State.Apart o (c.state.pc t))
    (access : c.state.Access t (c.state.pc t) e nx) :
    Sound o (c.noteStep o t e (c.state.after t e nx)) := by
  obtain ⟨kept, stands⟩ := sound
  have layout := kept.layout.after access
  have accounted := kept.accounted.after kept.layout access
  have apart' : State.Apart o ((c.state.after t e nx).pc t) := by
    rw [State.after_pc_self]
    exact State.access_apart access apart
  have turns : ∀ u, ¬ State.Apart o ((c.state.after t e nx).pc u) → c.turn = some u := by
    intro u busy
    by_cases same : u = t
    · exact absurd (same ▸ apart') busy
    · rw [State.after_pc_other same] at busy
      exact stands.turns u busy
  have same : ∀ u, c.turn = some u →
      ((c.state.after t e nx).pc u).carries o = (c.state.pc u).carries o ∧
      (∀ p, (c.state.after t e nx).Unread o ((c.state.after t e nx).pc u) p →
        c.state.Unread o (c.state.pc u) p) ∧
      ∀ p, (c.state.after t e nx).Read o ((c.state.after t e nx).pc u) p →
        c.state.Read o (c.state.pc u) p := by
    intro u _
    by_cases self : u = t
    · subst self
      exact ⟨by rw [apart.carries, apart'.carries], fun p unread => absurd unread apart'.unread,
        fun p _ => apart.read⟩
    · rw [State.after_pc_other self]
      have grows := kept.layout.extends access
      exact ⟨rfl, fun p => grows.unread (kept.layout.here u),
        fun p => grows.read (kept.layout.here u)⟩
  have zeros := apart.zeros kept.layout access
  have looks := apart.looks (s := c.state)
  have reading := apart.reading
  have resetting := apart.resetting
  cases State.access_changes kept.layout kept.accounted access o with
  | keeps puts _ grows word new counts =>
      simp only [noteStep, post_none puts zeros looks, puts, reading, resetting, false_and,
        if_false]
      exact ⟨kept.keeps layout accounted grows word new counts,
        stands.moved grows (layout.places_nodup o) kept.unused turns same⟩
  | puts p v puts _ member places word _ swaps starts =>
      simp only [noteStep, post_puts puts, puts, reading, resetting, false_and, if_false]
      exact ⟨kept.puts layout accounted member places word swaps starts _,
        stands.puts (kept.layout.places_nodup o) member places turns same⟩
  | zeros p _ some_ => rw [zeros] at some_; cases some_

/-- A step that only moves the thread whose turn it is. -/
theorem Sound.walk (sound : Sound o c) (mine : c.turn = some t)
    (access : c.state.Access t (c.state.pc t) e nx)
    (puts : c.state.puts o e = none) (zeros : c.state.zeros o e = none)
    (looks : c.state.looks o (c.state.pc t) = none) (goes : State.Next.pc nx ≠ .idle)
    (carries : (State.Next.pc nx).carries o = (c.state.pc t).carries o)
    (unread : ∀ p ∈ (c.state.after t e nx).places o,
      (c.state.after t e nx).Unread o (State.Next.pc nx) p → c.state.Unread o (c.state.pc t) p)
    (read : ∀ p ∈ (c.state.after t e nx).places o,
      (c.state.after t e nx).Read o (State.Next.pc nx) p → c.state.Read o (c.state.pc t) p) :
    Sound o (c.noteStep o t e (c.state.after t e nx)) := by
  obtain ⟨kept, grows⟩ := sound.kept.quiet access puts zeros
  have inside := (sound.stands.inside t mine).moved grows (kept.layout.places_nodup o)
    sound.kept.unused carries unread read
  have here : (c.state.after t e nx).pc t = State.Next.pc nx := State.after_pc_self
  rw [← here] at goes inside
  rw [noteStep_goes puts goes, post_none puts zeros looks]
  exact ⟨kept, sound.stands.onward mine (fun u other => State.after_pc_other other) inside⟩

/-- A call of `value` reads a word. -/
theorem Sound.look (sound : Sound o c) (mine : c.turn = some t) {p : Place O}
    (access : c.state.Access t (c.state.pc t) e nx) (member : p ∈ c.state.places o)
    (puts : c.state.puts o e = none) (zeros : c.state.zeros o e = none)
    (looks : c.state.looks o (c.state.pc t) = some p) (goes : State.Next.pc nx ≠ .idle)
    (storage : (c.state.after t e nx).storage = c.state.storage)
    (inside : c.state.Inside o
      (Function.update c.account p ((c.account p).look (c.state.word p).toNat))
      c.collected (State.Next.pc nx)) :
    Sound o (c.noteStep o t e (c.state.after t e nx)) := by
  obtain ⟨kept, grows⟩ := (sound.kept.look member (c.state.word p).toNat).quiet access puts zeros
  have later : (c.state.after t e nx).Inside o
      (Function.update c.account p ((c.account p).look (c.state.word p).toNat))
      c.collected (State.Next.pc nx) := inside.moved grows (kept.layout.places_nodup o)
    (fun q outside => (sound.kept.look member (c.state.word p).toNat).unused q outside) rfl
    (fun q _ => State.unread_congr storage) (fun q _ => State.read_congr storage)
  have here : (c.state.after t e nx).pc t = State.Next.pc nx := State.after_pc_self
  rw [← here] at goes later
  rw [noteStep_goes puts goes, post_looks puts zeros looks]
  exact ⟨kept, sound.stands.onward mine (fun u other => State.after_pc_other other) later⟩

/-- A store of zero. -/
theorem Sound.clear (sound : Sound o c) (mine : c.turn = some t) {p : Place O}
    (access : c.state.Access t (c.state.pc t) e nx)
    (puts : c.state.puts o e = none) (zeros : c.state.zeros o e = some p)
    (goes : State.Next.pc nx ≠ .idle)
    (storage : (c.state.after t e nx).storage = c.state.storage)
    (inside : c.state.Inside o
      (Function.update c.account p ((c.account p).clear (c.state.word p).toNat))
      c.collected (State.Next.pc nx)) :
    Sound o (c.noteStep o t e (c.state.after t e nx)) := by
  have kept := sound.kept
  have layout := kept.layout.after access
  have accounted := kept.accounted.after kept.layout access
  cases State.access_changes kept.layout kept.accounted access o with
  | keeps _ none_ => rw [zeros] at none_; cases none_
  | puts q v some_ => rw [puts] at some_; cases some_
  | zeros q _ zeroed member places word counts =>
      cases Option.some.inj (zeros.symm.trans zeroed)
      have kept' := kept.zeros layout accounted member places word counts
      have later : (c.state.after t e nx).Inside o
          (Function.update c.account p ((c.account p).clear (c.state.word p).toNat))
          c.collected (State.Next.pc nx) := inside.moved (places ▸ List.prefix_rfl)
        (layout.places_nodup o) (fun q outside => kept'.unused q (places ▸ outside)) rfl
        (fun q _ => State.unread_congr storage) (fun q _ => State.read_congr storage)
      have here : (c.state.after t e nx).pc t = State.Next.pc nx := State.after_pc_self
      rw [← here] at goes later
      rw [noteStep_goes puts goes, post_zeros puts zeros]
      exact ⟨kept', sound.stands.onward mine (fun u other => State.after_pc_other other) later⟩

/-- The call of `value` returns: what it has added up has been collected. -/
theorem Sound.valued (sound : Sound o c) (mine : c.turn = some t) {ret : Word}
    (access : c.state.Access t (c.state.pc t) e (.ret ret))
    (reading : (c.state.pc t).reading = some o)
    (puts : c.state.puts o e = none) (zeros : c.state.zeros o e = none)
    (looks : c.state.looks o (c.state.pc t) = none)
    (carries : (c.state.pc t).carries o = ret.toNat)
    (read : ∀ p ∈ c.state.places o, c.state.Read o (c.state.pc t) p) :
    Sound o (c.noteStep o t e (c.state.after t e (.ret ret))) := by
  obtain ⟨kept, grows⟩ := sound.kept.quiet access puts zeros
  have inside := sound.stands.inside t mine
  have idle : (c.state.after t e (.ret ret)).pc t = .idle := State.after_pc_self
  have result : (c.state.after t e (.ret ret)).result t = ret := by
    simp [State.after, State.ret]
  have others : ∀ u, u ≠ t → (c.state.after t e (.ret ret)).pc u = c.state.pc u :=
    fun u other => State.after_pc_other other
  have notReset : (c.state.pc t).resetting = none := PC.resetting_of_reading reading
  have later : c.state.Inside o c.account (c.collected + ret.toNat) .idle := by
    refine ⟨?_, fun p _ unread => False.elim unread,
      fun p member _ => inside.seen p member (read p member)⟩
    have before := inside.read
    rw [carries] at before
    exact before
  simp only [noteStep, post_none puts zeros looks, puts, reading, idle, result, notReset, and_self,
    reduceCtorEq, false_and, if_true, if_false]
  refine ⟨kept, sound.stands.onward mine others ?_⟩
  rw [idle]
  exact later.moved grows (kept.layout.places_nodup o) sound.kept.unused rfl
    (fun p _ unread => unread) (fun p _ read => read)

/-- The call of `reset` returns: the round is over. -/
theorem Sound.ends (sound : Sound o c) (mine : c.turn = some t) {ret : Word}
    (access : c.state.Access t (c.state.pc t) e (.ret ret))
    (resetting : (c.state.pc t).resetting = some o)
    (puts : c.state.puts o e = none) (zeros : c.state.zeros o e = none)
    (unread : ∀ p ∈ c.state.places o, c.state.Unread o (c.state.pc t) p) :
    Sound o (c.noteStep o t e (c.state.after t e (.ret ret))) := by
  obtain ⟨kept, grows⟩ := sound.kept.quiet access puts zeros
  have inside := sound.stands.inside t mine
  have idle : (c.state.after t e (.ret ret)).pc t = .idle := State.after_pc_self
  have others : ∀ u, u ≠ t → (c.state.after t e (.ret ret)).pc u = c.state.pc u :=
    fun u other => State.after_pc_other other
  obtain ⟨reading, looks, carries⟩ : (c.state.pc t).reading = none ∧
      c.state.looks o (c.state.pc t) = none ∧ (c.state.pc t).carries o = 0 := by
    generalize c.state.pc t = pc at resetting
    cases pc <;> first | exact ⟨rfl, rfl, rfl⟩ | cases resetting
  have read := inside.read
  rw [carries, add_zero] at read
  simp only [noteStep, post_none puts zeros looks, puts, resetting, idle, reading, and_self,
    false_and, reduceCtorEq, if_true, if_false]
  refine ⟨kept, sound.stands.ends mine others ?_ ?_ fun p member => ?_⟩
  · rw [idle]
    exact ⟨by simp [PC.reading], by simp [PC.resetting]⟩
  · rw [read, State.sum_grown grows (kept.layout.places_nodup o) Account.read rfl
      sound.kept.unused]
  · by_cases old : p ∈ c.state.places o
    · exact inside.settled p old (unread p old)
    · exact sound.kept.unused p old ▸ Account.settled_zero

/-- A step of the call of `value` of the round. -/
theorem Sound.reads (sound : Sound o c) (reading : (c.state.pc t).reading = some o)
    (access : c.state.Access t (c.state.pc t) e nx) :
    Sound o (c.noteStep o t e (c.state.after t e nx)) := by
  have mine := sound.stands.turns t fun apart => apart.reading reading
  have inside := sound.stands.inside t mine
  have here := sound.kept.layout.here t
  have walk := @walk _ _ _ _ c t e nx o sound mine
  have look := @look _ _ _ _ c t e nx o sound mine
  have valued := @valued _ _ _ _ c t e o sound mine
  generalize c.state.pc t = pc at access reading inside here walk look valued
  cases access <;> cases reading
  case valueBase =>
      exact look (.valueBase o) (State.mem_places_base.2 rfl) rfl rfl (if_pos rfl) (by simp) rfl
        (inside.look_base sound.kept)
  case valueEmpty ret empty =>
      refine valued (.valueEmpty o ret empty) rfl rfl rfl rfl (if_pos rfl) fun p member _ => ?_
      have none_ : c.state.cells o = [] := by simp [State.cells, empty]
      simpa [State.places, none_] using member
  case valueLoad ret cur stripes =>
      exact walk (.valueLoad o ret cur stripes) rfl rfl rfl (by simp) rfl (fun p _ unread => unread)
        fun p _ read => read
  case valueSet ret cur =>
      exact walk (.valueSet o ret cur) rfl rfl rfl (by simp) rfl (fun p _ unread => unread)
        fun p _ read => read
  case valueSame ret cur current =>
      refine walk (.valueSame o ret cur current) rfl rfl rfl (by simp) rfl
        (fun p _ unread => unread)
        fun p member read _ => ?_
      cases p with
      | base o' => rw [State.mem_places_base.1 member]
      | cell d =>
          have inCells := State.mem_places_cell.1 member
          have cells : c.state.cells o = (c.state.storage cur).data := by
            simp [State.cells, current]
          exact absurd (cells ▸ inCells) (read rfl d rfl)
  case valueAgain ret cur moved =>
      exact walk (.valueAgain o ret cur moved) rfl rfl rfl (by simp) rfl (fun p _ unread => unread)
        fun p _ read => read
  case valueSize ret cur =>
      have more := (c.state.storage cur).size_pos
      have enters : State.valueLoop o ret cur (c.state.storage cur).size 0 =
          .valueGet o ret cur (c.state.storage cur).size 0 := if_pos more
      have access : c.state.Access t (.valueSize o ret cur) .none
        (.goto (State.valueLoop o ret cur (c.state.storage cur).size 0)) := .valueSize o ret cur
      rw [enters] at access walk ⊢
      exact walk access rfl rfl rfl (by simp) rfl (fun p _ unread => ⟨unread.1, unread.2.1⟩)
        fun p _ read => read
  case valueGet ret cur len i =>
      obtain ⟨within, more, rfl⟩ := here
      refine look (.valueGet o ret cur _ i) ?_ rfl rfl (if_pos rfl) ?_ rfl
        (inside.look_cell sound.kept within more rfl)
      · exact State.mem_places_cell.2 (within.2.subset (Storage.get_mem more))
      · simp only [State.Next.pc_goto, State.valueLoop]
        split <;> simp
  case valueClear ret =>
      exact valued (.valueClear o ret) rfl rfl rfl rfl (if_pos rfl) fun p _ => trivial

/-- A step of the call of `reset` of the round. -/
theorem Sound.resets (sound : Sound o c) (resetting : (c.state.pc t).resetting = some o)
    (access : c.state.Access t (c.state.pc t) e nx) :
    Sound o (c.noteStep o t e (c.state.after t e nx)) := by
  have mine := sound.stands.turns t fun apart => apart.resetting resetting
  have inside := sound.stands.inside t mine
  have here := sound.kept.layout.here t
  have walk := @walk _ _ _ _ c t e nx o sound mine
  have clear := @clear _ _ _ _ c t e nx o sound mine
  have ends := @ends _ _ _ _ c t e o sound mine
  generalize c.state.pc t = pc at access resetting inside here walk clear ends
  cases access <;> first | cases resetting | skip
  case resetBase =>
      exact clear (.resetBase o) rfl (if_pos rfl) (by simp) rfl
        (inside.clear_base sound.kept)
  case resetSize cur =>
      have more := (c.state.storage cur).size_pos
      have enters : State.resetLoop o cur (c.state.storage cur).size 0 =
          .resetGet o cur (c.state.storage cur).size 0 := if_pos more
      have access : c.state.Access t (.resetSize o cur) .none
        (.goto (State.resetLoop o cur (c.state.storage cur).size 0)) := .resetSize o cur
      rw [enters] at access walk ⊢
      exact walk access rfl rfl rfl (by simp) rfl (fun p _ unread => unread) fun p _ read => read
  case resetGet cur len i =>
      obtain ⟨within, more, rfl⟩ := here
      have inCells := within.2.subset (Storage.get_mem more)
      refine clear (.resetGet o cur _ i) rfl (if_pos inCells) ?_ rfl
        (inside.clear_cell sound.kept within more rfl)
      simp only [State.Next.pc_goto, State.resetLoop]
      split <;> simp
  case resetClear => exact ends (.resetClear o) rfl rfl rfl fun p _ => rfl
  case load site | loadSet site cur | loadAgain site cur =>
      cases site <;> cases resetting
      first
        | exact walk (.load (.reset o)) rfl rfl rfl (by simp) rfl (fun p _ unread => unread)
            fun p _ read => read
        | exact walk (.loadSet (.reset o) cur) rfl rfl rfl (by simp) rfl (fun p _ unread => unread)
            fun p _ read => read
        | exact walk (.loadAgain (.reset o) cur) rfl rfl rfl (by simp) rfl
            (fun p _ unread => unread) fun p _ read => read
  case loadSame site =>
      cases site <;> cases resetting
      have access := State.Access.loadSame (s := c.state) (t := t) (.reset o)
      simp only [Site.this] at access walk clear ends ⊢
      cases stripes : c.state.stripes o with
      | none =>
          rw [stripes] at access ends
          refine ends access rfl rfl rfl fun p member => ?_
          have none_ : c.state.cells o = [] := by simp [State.cells, stripes]
          have isBase : p = .base o := by simpa [State.places, none_] using member
          exact ⟨rfl, isBase⟩
      | some cur =>
          rw [stripes] at access walk
          refine walk access rfl rfl rfl (by simp [State.loaded]) rfl (fun p member unread => ?_)
            fun p _ read _ => ?_
          · refine ⟨rfl, ?_⟩
            cases p with
            | base o' => rw [State.mem_places_base.1 member]
            | cell d =>
                have inCells := State.mem_places_cell.1 member
                have cells : c.state.cells o = (c.state.storage cur).data := by
                  simp [State.cells, stripes]
                exact absurd (cells ▸ inCells) (unread.2 d rfl)
          · obtain ⟨d, -, rfl⟩ := read rfl
            simp

theorem apart_idle : State.Apart o (.idle : PC O) := ⟨by simp [PC.reading], by simp [PC.resetting]⟩

/-- The memory of the object is as it was. -/
theorem Sound.same {s' : State T O} (sound : Sound o c) (layout : s'.Layout)
    (accounted : s'.Accounted) (grows : c.state.places o <+: s'.places o)
    (extends_ : State.Extends c.state s')
    (word : ∀ p ∈ c.state.places o, s'.word p = c.state.word p)
    (new : ∀ p ∈ s'.places o, p ∉ c.state.places o → s'.word p = 0)
    (swaps : swapped s'.log o = swapped c.state.log o) (small : started s'.log o < 2 ^ 63)
    (pcs : ∀ u, s'.pc u = c.state.pc u ∨
      State.Apart o (c.state.pc u) ∧ State.Apart o (s'.pc u)) :
    Sound o { c with state := s' } where
  kept :=
    { layout := layout
      accounted := accounted
      small := small
      exact := fun p member => by
        by_cases old : p ∈ c.state.places o
        · rw [word p old]
          exact sound.kept.exact p old
        · rw [new p member old, sound.kept.unused p old]
          rfl
      unused := fun p outside => sound.kept.unused p fun old => outside (grows.subset old)
      sum := by
        rw [State.sum_grown grows (layout.places_nodup o) Account.put rfl sound.kept.unused, swaps,
          sound.kept.sum]
      during := by
        rw [State.sum_grown grows (layout.places_nodup o) Account.missed rfl sound.kept.unused,
          sound.kept.during] }
  stands := by
    refine sound.stands.moved grows (layout.places_nodup o) sound.kept.unused (fun u busy => ?_)
      fun u _ => ?_
    · rcases pcs u with stays | ⟨-, apart⟩
      · exact sound.stands.turns u (stays ▸ busy)
      · exact absurd apart busy
    · rcases pcs u with stays | ⟨apart, apart'⟩
      · rw [stays]
        have here := sound.kept.layout.here u
        exact ⟨rfl, fun p => extends_.unread here, fun p => extends_.read here⟩
      · exact ⟨by rw [apart.carries, apart'.carries], fun p unread => absurd unread apart'.unread,
          fun p _ => apart.read⟩

/-- Thread `t` enters a member function of another object, or `add`. -/
theorem Sound.enter (sound : Sound o c) (idle : c.state.pc t = .idle) {pc : PC O}
    (apart : State.Apart o pc) {call : T → Nat} {log : List (Add O)}
    (layout : State.Layout { c.state.goto t pc with call := call, log := log })
    (accounted : State.Accounted { c.state.goto t pc with call := call, log := log })
    (swaps : swapped log o = swapped c.state.log o) (small : started log o < 2 ^ 63) :
    Sound o { c with state := { c.state.goto t pc with call := call, log := log } } := by
  refine sound.same layout accounted List.prefix_rfl
    ⟨Nat.le_refl _, fun _ _ => rfl, fun _ => List.prefix_rfl, fun _ known => known⟩
    (fun _ _ => rfl) (fun p member new => absurd member new) swaps small fun u => ?_
  by_cases same : u = t
  · subst same
    refine .inr ⟨idle ▸ apart_idle, ?_⟩
    show State.Apart o (if u = u then pc else c.state.pc u)
    rw [if_pos rfl]
    exact apart
  · exact .inl (if_neg same)

theorem Kept.goto {s : State T O} {account : Place O → Account} {during : Nat}
    (kept : s.Kept o account during) {pc : PC O} (layout : (s.goto t pc).Layout)
    (accounted : (s.goto t pc).Accounted) : (s.goto t pc).Kept o account during :=
  kept.keeps layout accounted List.prefix_rfl (fun _ _ => rfl)
    (fun _ member new => absurd member new) ⟨rfl, rfl, rfl⟩

/-- A round begins. -/
theorem Sound.opens (sound : Sound o c) (free : c.turn = none)
    (layout : (c.state.goto t (.valueBase o)).Layout)
    (accounted : (c.state.goto t (.valueBase o)).Accounted) :
    Sound o { c with state := c.state.goto t (.valueBase o), turn := some t } := by
  have here : (c.state.goto t (.valueBase o)).pc t = .valueBase o := if_pos rfl
  obtain ⟨read, settled⟩ := sound.stands.between free
  refine ⟨Kept.goto sound.kept layout accounted,
    { turns := fun u busy => ?_, between := fun none_ => absurd none_ (by simp),
      inside := fun u its => ?_ }⟩
  · by_cases same : u = t
    · rw [same]
    · have stays : (c.state.goto t (.valueBase o)).pc u = c.state.pc u := if_neg same
      have its := sound.stands.turns u fun apart => busy (stays ▸ apart)
      rw [free] at its
      cases its
  · cases its
    show State.Inside _ o c.account c.collected ((c.state.goto t (.valueBase o)).pc t)
    rw [here]
    exact ⟨read, fun p member _ => settled p member, fun p _ other => absurd rfl other⟩

/-- The thread whose round it is begins to reset. -/
theorem Sound.closes (sound : Sound o c) (idle : c.state.pc t = .idle) (mine : c.turn = some t)
    (layout : (c.state.goto t (.resetBase o)).Layout)
    (accounted : (c.state.goto t (.resetBase o)).Accounted) :
    Sound o { c with state := c.state.goto t (.resetBase o) } := by
  have here : (c.state.goto t (.resetBase o)).pc t = .resetBase o := if_pos rfl
  have others : ∀ u, u ≠ t → (c.state.goto t (.resetBase o)).pc u = c.state.pc u :=
    fun u other => if_neg other
  have inside := sound.stands.inside t mine
  rw [idle] at inside
  refine ⟨Kept.goto sound.kept layout accounted, sound.stands.onward mine others ?_⟩
  rw [here]
  exact inside.moved List.prefix_rfl (layout.places_nodup o) sound.kept.unused rfl
    (fun p _ unread => unread) fun p _ read => read

theorem Sound.next [Fintype T] (sound : Sound o c) {a : Action T O} (orderly : Orderly o c a)
    (taken : c.next o a = some c') : Sound o c' := by
  obtain ⟨s', stepped, rfl⟩ := Option.map_eq_some_iff.1 taken
  have layout := sound.kept.layout.next stepped
  have accounted := sound.kept.accounted.next sound.kept.layout stepped
  cases a with
  | make this k =>
      simp only [State.next] at stepped
      split at stepped
      · cases stepped
      · rename_i notLive
        cases stepped
        have grows := sound.kept.layout.extends_make notLive k
        obtain ⟨word, new⟩ := State.places_make (o := o) sound.kept.layout notLive k
        have log : (c.state.make this k).log = c.state.log := by cases k <;> rfl
        have pc : (c.state.make this k).pc = c.state.pc := by cases k <;> rfl
        exact sound.same layout accounted
          (List.prefix_cons_inj _ |>.2 ((grows.cells o).map _)) grows
          word new (by rw [log]) (by rw [log]; exact sound.kept.small) fun u => .inl (by rw [pc])
  | add t this value =>
      simp only [State.next] at stepped
      split at stepped
      · rename_i enabled
        cases stepped
        refine sound.enter enabled.1 ⟨by simp [PC.reading], by simp [PC.resetting]⟩ layout accounted
          ?_ ?_
        · simp [swapped, State.sumWhere_append]
        · have small := sound.kept.small
          by_cases here : this = o
          · have room := orderly here
            simpa [started, State.sumWhere_append, here] using room
          · simpa [started, State.sumWhere_append, here] using small
      · cases stepped
  | value t this =>
      simp only [State.next] at stepped
      split at stepped
      · rename_i enabled
        cases stepped
        by_cases here : this = o
        · subst here
          simp only [note, if_true]
          exact sound.opens (orderly rfl) layout accounted
        · simp only [note, here, if_false]
          exact sound.enter enabled.1 ⟨by simp [PC.reading, here], by simp [PC.resetting]⟩ layout
            accounted rfl sound.kept.small
      · cases stepped
  | reset t this =>
      simp only [State.next] at stepped
      split at stepped
      · rename_i enabled
        cases stepped
        by_cases here : this = o
        · subst here
          exact sound.closes enabled.1 (orderly rfl) layout accounted
        · exact sound.enter enabled.1 ⟨by simp [PC.reading], by simp [PC.resetting, here]⟩ layout
            accounted rfl sound.kept.small
      · cases stepped
  | step t =>
      have planned := stepped
      simp only [State.next] at planned
      split at planned
      · cases planned
      · rename_i e nx plan
        cases planned
        have access := State.access_of_plan plan
        simp only [note, plan]
        by_cases reading : (c.state.pc t).reading = some o
        · exact sound.reads reading access
        · by_cases resetting : (c.state.pc t).resetting = some o
          · exact sound.resets resetting access
          · exact sound.apart ⟨reading, resetting⟩ access
  | reclaim storage =>
      simp only [State.next] at stepped
      split at stepped
      · cases stepped
        exact sound.same layout accounted List.prefix_rfl
          ⟨Nat.le_refl _, fun _ _ => rfl, fun _ => List.prefix_rfl, fun _ known => known⟩
          (fun _ _ => rfl) (fun p member new => absurd member new) rfl sound.kept.small
          fun u => .inl rfl
      · cases stepped

/-- What the accounts say of the sums. -/
theorem Sound.bounds (sound : Sound o c) : c.collected ≤ swapped c.state.log o ∧
    (c.turn = none → c.collected + c.state.content o ≤ swapped c.state.log o ∧
      swapped c.state.log o ≤ c.collected + c.state.content o + c.during) := by
  have kept := sound.kept
  rw [State.content, State.weigh_places, ← kept.sum]
  refine ⟨?_, fun free => ?_⟩
  · cases turn : c.turn with
    | none =>
        obtain ⟨read, settled⟩ := sound.stands.between turn
        rw [read]
        exact Theory.sum_read_le kept.exact fun p member => .inl (settled p member)
    | some t =>
        have inside := sound.stands.inside t turn
        have most := Theory.sum_read_le kept.exact
          (inside.settled_or_seen kept (kept.layout.here t))
        have read := inside.read
        omega
  · obtain ⟨read, settled⟩ := sound.stands.between free
    rw [read, ← kept.during]
    exact ⟨Theory.sum_read_held_le kept.exact settled, Theory.sum_put_le kept.exact settled⟩

/-- What is added while a round is on is noted. -/
theorem Sound.during_next [Fintype T] (sound : Sound o c) {a : Action T O}
    (taken : c.next o a = some c') : c'.during = c.during +
      if c.turn.isSome = true then swapped c'.state.log o - swapped c.state.log o else 0 := by
  obtain ⟨s', stepped, rfl⟩ := Option.map_eq_some_iff.1 taken
  have idle : swapped s'.log o = swapped c.state.log o → c.during = c.during +
      if c.turn.isSome = true then swapped s'.log o - swapped c.state.log o else 0 := by
    intro same
    rw [same, Nat.sub_self]
    simp
  cases a with
  | make this k =>
      simp only [State.next] at stepped
      split at stepped
      · cases stepped
      · cases stepped
        exact idle (by cases k <;> rfl)
  | add t this value =>
      simp only [State.next] at stepped
      split at stepped
      · cases stepped
        exact idle (by simp [swapped, State.sumWhere_append])
      · cases stepped
  | value | reset | reclaim =>
      simp only [State.next] at stepped
      split at stepped
      · cases stepped
        exact idle rfl
      · cases stepped
  | step t =>
      simp only [State.next] at stepped
      split at stepped
      · cases stepped
      · rename_i e nx plan
        cases stepped
        have access := State.access_of_plan plan
        simp only [note, plan, noteStep]
        cases State.access_changes sound.kept.layout sound.kept.accounted access o with
        | keeps puts _ _ _ _ counts =>
            rw [puts]
            exact idle counts.swapped
        | zeros p puts _ _ _ _ counts =>
            rw [puts]
            exact idle counts.swapped
        | puts p v puts _ _ _ _ _ swaps _ =>
            rw [puts, swaps, Nat.add_sub_cancel_left]

/-- **What is read and reset is collected once.** Take any run from a fresh system in which the
deltas of an object are not negative and stay below 2^63 in total, and in which rounds of `value`
and `reset` do not overlap; other threads add at any time. Then

* what all calls of `value` have returned never adds up to more than has been added;
* between two rounds, this and what is still there is at most what has been added, and what is
  missing has been added while a round was on. -/
theorem collects_once [Fintype T] {hashCode : T → Word} {as : List (Action T O)}
    (ran : Theory.run (next o) (init hashCode) as = some c)
    (orderly : Theory.Along (next o) (Orderly o) (init hashCode) as) :
    c.collected ≤ swapped c.state.log o ∧
    (c.turn = none → c.collected + c.state.content o ≤ swapped c.state.log o ∧
      swapped c.state.log o ≤ c.collected + c.state.content o + c.during) :=
  have sound : Sound o c := Theory.run_along (P := Sound o)
    (fun _ _ _ sound orderly taken => sound.next orderly taken) (sound_init hashCode) orderly ran
  sound.bounds

/-- Thread 1 adds 5, and then 7 when thread 0 has read the base and has not reset it. -/
def roundBeside : List (Action (Fin 2) Unit) :=
  Action.make () none :: .add 1 () 5 :: List.replicate 3 (.step 1) ++
    Action.value 0 () :: .step 0 :: .add 1 () 7 :: List.replicate 3 (.step 1) ++ Action.step 0 ::
      .reset 0 () :: List.replicate 4 (.step 0)

/-- The 7 is lost. -/
theorem collects_once_beside : ∃ c : Collected (Fin 2) Unit,
    Theory.run (next ()) (init fun _ => 0) roundBeside = some c ∧
    (c.collected, c.during, swapped c.state.log ()) = (5, 7, 12) ∧
    (c.collected + c.state.content () ≤ 12 ∧ 12 ≤ c.collected + c.state.content () + c.during) := by
  have played : (Theory.run (next ()) (init fun _ => 0 : Collected (Fin 2) Unit) roundBeside).map
      (fun c => (c.collected, c.during, swapped c.state.log (), c.turn)) =
        some (5, 7, 12, none) := by
    decide +kernel
  have orderly : Theory.Along (next ()) (Orderly ()) (init fun _ => 0 : Collected (Fin 2) Unit)
      roundBeside := by
    decide +kernel
  obtain ⟨c, ran, left⟩ := Option.map_eq_some_iff.1 played
  simp only [Prod.mk.injEq] at left
  obtain ⟨collected, during, swaps, free⟩ := left
  have bounds := (collects_once ran orderly).2 free
  rw [swaps] at bounds
  exact ⟨c, ran, by rw [collected, during, swaps], bounds⟩

end Collected

end Ccmetrics.Striped
