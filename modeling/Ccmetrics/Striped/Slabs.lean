/-
# Striped.Slabs -- the slabs of a storage and its destructor

`Striped64_Storage()` allocates a slab of two cells, `expand` one slab as large as all the cells
before it. So a storage of 2^n cells has n slabs, and they start at the indices 0, 2, 4, 8, …
(`slabIndex`). The destructor finds these indices again by shifting, and deletes every slab
(`owner_`), only the last (`disavow`), or none (`disavow_all`).

The shift is done on an `int`: `1 << 31` has no defined value, and the model stops there. A storage
of at most 2^30 cells never gets that far (`destructor_eq`).
-/
import Mathlib.Data.Nat.Log
import Ccmetrics.Striped.Layout

namespace Ccmetrics.Striped

set_option autoImplicit false
set_option linter.unusedSectionVars false

/-- A slab: its first cell and how many cells it has. -/
structure Slab where
  start : Nat
  length : Nat
  deriving DecidableEq

/-- The cells of a slab. -/
def Slab.cells (x : Slab) : List Nat := List.range' x.start x.length

theorem Slab.mem_cells {x : Slab} {c : Nat} :
    c ∈ x.cells ↔ x.start ≤ c ∧ c < x.start + x.length := List.mem_range'_1

namespace Storage

variable {st : Storage}

/-- The loop of `~Striped64_Storage`: what it deletes, and the index of the last slab. -/
def destructorLoop (st : Storage) (shift slab : Nat) : Option (List Nat × Nat) :=
  let deleted := if st.owner = true then [st.get slab] else []
  if shift + 1 < 31 then
    let nextSlab := 1 <<< (shift + 1)
    if st.size ≤ nextSlab then some (deleted, slab)
    else (st.destructorLoop (shift + 1) nextSlab).map fun (rest, last) => (deleted ++ rest, last)
  else none
termination_by 31 - shift

/-- `~Striped64_Storage`: the pointers it passes to `delete []`, in this order. -/
def destructor (st : Storage) : Option (List Nat) :=
  (st.destructorLoop 0 0).map fun (deleted, last) =>
    deleted ++ if st.owner = false ∧ st.cleanCreated = true then [st.get last] else []

/-- The slabs that the loop of `Striped64(k)` allocates. -/
def growSlabs (st : Storage) (k slab : Nat) : List Slab :=
  if st.size < k then
    ⟨slab, (st.size <<< 1) - st.size⟩ ::
      (st.expand slab).growSlabs k (slab + ((st.size <<< 1) - st.size))
  else []
termination_by k - st.size
decreasing_by
  have := st.size_pos
  simp only [expand, Nat.shiftLeft_eq]
  omega

/-- What the loop of `Striped64(k)` deletes: each storage it leaves behind is disavowed first. -/
def growDeletes (st : Storage) (k slab : Nat) : Option (List Nat) :=
  if st.size < k then
    (st.disavowAll.destructor).bind fun here =>
      ((st.expand slab).growDeletes k (slab + ((st.size <<< 1) - st.size))).map fun rest =>
        here ++ rest
  else some []
termination_by k - st.size
decreasing_by
  have := st.size_pos
  simp only [expand, Nat.shiftLeft_eq]
  omega

/-! ## Where the slabs start -/

/-- The index at which slab `j` starts. -/
def slabIndex : Nat → Nat
  | 0 => 0
  | j + 1 => 2 ^ (j + 1)

theorem slabIndex_lt {j n : Nat} (inside : j < n) : slabIndex j < 2 ^ n := by
  cases j with
  | zero => exact Nat.two_pow_pos n
  | succ j => exact Nat.pow_lt_pow_right (by decide) inside

theorem slabIndex_inj {i j : Nat} (same : slabIndex i = slabIndex j) : i = j := by
  cases i <;> cases j
  case zero.zero => rfl
  case zero.succ j => exact absurd same.symm (Nat.two_pow_pos (j + 1)).ne'
  case succ.zero i => exact absurd same (Nat.two_pow_pos (i + 1)).ne'
  case succ.succ i j => exact Nat.pow_right_injective (Nat.le_refl 2) same

/-- The first cells of the first `n` slabs. -/
def starts (st : Storage) (n : Nat) : List Nat :=
  (List.range n).map fun j => st.get (slabIndex j)

theorem mem_starts {n c : Nat} (member : c ∈ st.starts n) (size : st.size = 2 ^ n) :
    c ∈ st.data := by
  obtain ⟨j, inside, rfl⟩ := List.mem_map.1 member
  exact get_mem (size ▸ slabIndex_lt (List.mem_range.1 inside))

theorem get_inj (nodup : st.data.Nodup) {i j : Nat} (insideI : i < st.size) (insideJ : j < st.size)
    (same : st.get i = st.get j) : i = j := by
  rw [← st.length_data] at insideI insideJ
  simp only [get, List.getD_eq_getElem _ _ insideI, List.getD_eq_getElem _ _ insideJ] at same
  exact (nodup.getElem_inj_iff).1 same

theorem starts_nodup {n : Nat} (nodup : st.data.Nodup) (size : st.size = 2 ^ n) :
    (st.starts n).Nodup := by
  refine List.Nodup.map_on (fun i insideI j insideJ same => ?_) List.nodup_range
  refine slabIndex_inj (get_inj nodup ?_ ?_ same)
  · rw [size]; exact slabIndex_lt (List.mem_range.1 insideI)
  · rw [size]; exact slabIndex_lt (List.mem_range.1 insideJ)

/-! ## The destructor -/

theorem destructorLoop_eq {n : Nat} (size : st.size = 2 ^ n) (fits : n ≤ 30) (j : Nat)
    (inside : j < n) :
    st.destructorLoop j (slabIndex j) =
      some (if st.owner = true then (List.range' j (n - j)).map fun i => st.get (slabIndex i)
        else [], slabIndex (n - 1)) := by
  have small : j + 1 < 31 := by omega
  have next : (1 : Nat) <<< (j + 1) = 2 ^ (j + 1) := by rw [Nat.shiftLeft_eq, Nat.one_mul]
  rw [destructorLoop]
  simp only [if_pos small, next, size]
  by_cases last : n = j + 1
  · subst last
    have one : j + 1 - j = 1 := by omega
    simp [one]
  · have more : ¬ 2 ^ n ≤ 2 ^ (j + 1) := by
      have := Nat.pow_lt_pow_right (a := 2) (by decide) (show j + 1 < n by omega)
      omega
    have rest := destructorLoop_eq size fits (j + 1) (by omega)
    have count : n - j = (n - (j + 1)) + 1 := by omega
    have here : 2 ^ (j + 1) = slabIndex (j + 1) := rfl
    rw [if_neg more, here, rest, count, List.range'_succ]
    by_cases owner : st.owner = true <;> simp [owner]
termination_by n - j

/-- A storage of 2^n cells: every slab, the last slab, or nothing. -/
theorem destructor_eq {n : Nat} (size : st.size = 2 ^ n) (pos : 0 < n) (fits : n ≤ 30) :
    st.destructor = some (if st.owner = true then st.starts n
      else if st.cleanCreated = true then [st.get (slabIndex (n - 1))] else []) := by
  have loop : st.destructorLoop 0 0 = _ := destructorLoop_eq size fits 0 pos
  rw [destructor, loop]
  cases owner : st.owner <;> cases clean : st.cleanCreated <;>
    simp [starts, List.range_eq_range']

/-! ## How a storage is built up -/

/-- The data of a storage are the cells of its slabs, which start where the destructor looks. -/
structure Tiled (st : Storage) (n : Nat) (xs : List Slab) : Prop where
  size : st.size = 2 ^ n
  pos : 0 < n
  data : st.data = xs.flatMap Slab.cells
  starts : st.starts n = xs.map Slab.start

theorem tiled_new (slab : Nat) : (new slab).Tiled 1 [⟨slab, 2⟩] where
  size := rfl
  pos := Nat.one_pos
  data := rfl
  starts := rfl

theorem Tiled.expand {n : Nat} {xs : List Slab} (tiled : st.Tiled n xs) (slab : Nat) :
    (st.expand slab).Tiled (n + 1) (xs ++ [⟨slab, (st.size <<< 1) - st.size⟩]) where
  size := by
    simp only [Storage.expand, tiled.size, Nat.shiftLeft_eq, Nat.pow_succ, Nat.pow_zero, Nat.one_mul]
  pos := Nat.succ_pos n
  data := by
    simp [Storage.expand, tiled.data, Slab.cells]
  starts := by
    have old : ∀ j < n, (st.expand slab).get (slabIndex j) = st.get (slabIndex j) := by
      intro j inside
      have below : slabIndex j < st.data.length := by
        rw [st.length_data, tiled.size]
        exact slabIndex_lt inside
      simp [get, Storage.expand, List.getElem?_append_left below]
    have new_ : (st.expand slab).get (slabIndex n) = slab := by
      obtain ⟨m, rfl⟩ := Nat.exists_eq_succ_of_ne_zero tiled.pos.ne'
      have length : st.data.length = 2 ^ (m + 1) := by rw [st.length_data, tiled.size]
      have pos := Nat.two_pow_pos (m + 1)
      have room : 0 < (st.size <<< 1) - st.size := by
        rw [tiled.size, Nat.shiftLeft_eq]
        omega
      simp [get, Storage.expand, slabIndex, length, room]
    have kept := tiled.starts
    simp only [Storage.starts, List.range_succ, List.map_append, List.map_cons, List.map_nil,
      new_] at kept ⊢
    rw [← kept]
    congr 1
    exact List.map_congr_left fun j inside => old j (List.mem_range.1 inside)

/-- `Striped64(k)` adds its slabs one after the other. -/
theorem Tiled.growTo {n : Nat} {xs : List Slab} (tiled : st.Tiled n xs) (k slab : Nat) :
    ∃ m, (st.growTo k slab).Tiled m (xs ++ st.growSlabs k slab) ∧
      (k ≤ 2 ^ 30 → n ≤ 30 → m ≤ 30) := by
  induction st, slab using Storage.growTo.induct k generalizing n xs with
  | case1 st slab small ih =>
      obtain ⟨m, grown, fits⟩ := ih (tiled.expand slab)
      refine ⟨m, ?_, fun bound old => fits bound ?_⟩
      · rw [Storage.growTo, if_pos small, growSlabs, if_pos small]
        simpa using grown
      · have below : 2 ^ n < 2 ^ 30 := by
          have := tiled.size
          omega
        exact (Nat.pow_lt_pow_iff_right (by decide)).1 below
  | case2 st slab large =>
      refine ⟨n, ?_, fun _ old => old⟩
      rw [Storage.growTo, if_neg large, growSlabs, if_neg large, List.append_nil]
      exact tiled

/-- The storages that `Striped64(k)` leaves behind take nothing with them. -/
theorem Tiled.growDeletes {k n : Nat} {xs : List Slab} (tiled : st.Tiled n xs)
    (bound : k ≤ 2 ^ 30) (fits : n ≤ 30) (slab : Nat) : st.growDeletes k slab = some [] := by
  induction st, slab using Storage.growTo.induct k generalizing n xs with
  | case1 st slab small ih =>
      have below : 2 ^ n < 2 ^ 30 := by
        have := tiled.size
        omega
      have rest := ih (tiled.expand slab) ((Nat.pow_lt_pow_iff_right (by decide)).1 below)
      have here : st.disavowAll.destructor = some [] := by
        have size : st.disavowAll.size = 2 ^ n := tiled.size
        rw [destructor_eq size tiled.pos fits]
        rfl
      rw [Storage.growDeletes, if_pos small, here, rest]
      rfl
  | case2 st slab large => rw [Storage.growDeletes, if_neg large]

/-- They lie one behind the other, in front of what is allocated next. -/
theorem growSlabs_between (st : Storage) (k slab : Nat) :
    (st.growSlabs k slab).Pairwise (fun x y => x.start + x.length ≤ y.start) ∧
      st.size ≤ (st.growTo k slab).size ∧
      ∀ x ∈ st.growSlabs k slab, 0 < x.length ∧ slab ≤ x.start ∧
        x.start + x.length ≤ slab + ((st.growTo k slab).size - st.size) := by
  induction st, slab using Storage.growTo.induct k with
  | case1 st slab small ih =>
      obtain ⟨apart, larger, inside⟩ := ih
      have size : (st.expand slab).size = st.size <<< 1 := rfl
      have doubled : st.size < st.size <<< 1 := by
        have := st.size_pos
        rw [Nat.shiftLeft_eq]
        omega
      rw [size] at larger inside
      rw [growSlabs, if_pos small, Storage.growTo, if_pos small]
      refine ⟨List.pairwise_cons.2 ⟨fun y member => (inside y member).2.1, apart⟩, by omega, ?_⟩
      intro x member
      rcases List.mem_cons.1 member with rfl | later
      · refine ⟨Nat.sub_pos_of_lt doubled, Nat.le_refl _, ?_⟩
        show slab + (st.size <<< 1 - st.size) ≤ _
        omega
      · have := inside x later
        omega
  | case2 st slab large =>
      rw [growSlabs, if_neg large, Storage.growTo, if_neg large]
      exact ⟨List.Pairwise.nil, Nat.le_refl _, by simp⟩

end Storage

namespace State

variable {T O : Type} [DecidableEq T] [DecidableEq O]
variable {s s' : State T O} {t u : T} {e : Effect O} {nx : Next O} {o : O}

/-- How large the storages are that a thread has allocated or is about to. -/
def Sized (s : State T O) : PC O → Prop
  | .slowPublish _ cur => (s.storage cur).size = 2
  | .slowExpand _ cur => (s.storage cur).size < stripeLimit
  | .slowSwap _ cur next =>
      (s.storage next).size = (s.storage cur).size <<< 1 ∧ (s.storage cur).size < stripeLimit
  | _ => True

theorem Extends.sized (grows : Extends s s') {pc : PC O} (here : s.Local pc) (sized : s.Sized pc) :
    s'.Sized pc := by
  cases pc with
  | slowPublish f cur =>
      show (s'.storage cur).size = 2
      rw [grows.size here.2]
      exact sized
  | slowExpand f cur =>
      show (s'.storage cur).size < stripeLimit
      rw [grows.size here.1]
      exact sized
  | slowSwap f cur next =>
      show (s'.storage next).size = _ ∧ _
      rw [grows.size here.1.1, grows.size here.2.1]
      exact sized
  | _ => trivial

/-- The thread that takes the step. -/
theorem access_sized (layout : s.Layout) (access : Access s t (s.pc t) e nx)
    (sized : s.Sized (s.pc t)) : (s.after t e nx).Sized (Next.pc nx) := by
  have here := layout.here t
  generalize s.pc t = pc at access here sized
  cases access <;> first | exact trivial | skip
  case slowNew f => simp [Sized, apply, allocate, Storage.new]
  case slowSmall f cur small => exact small
  case slowExpand f cur =>
      have old : cur ≠ s.freshStorage := Nat.ne_of_lt here.1
      have size : (s.storage cur).size < stripeLimit := sized
      simp [Sized, apply, allocate, Storage.expand, old, size]
  case slowLate | slowRehash | slowFull | slowRetire =>
      simp only [slowTop, Next.pc_goto]
      split <;> trivial
  case slowRaced f cur next raced =>
      cases s.stripes f.this <;> simp only [slowTop, Next.pc_goto]
      · trivial
      · split <;> trivial
  case loadSame site => cases site <;> cases s.stripes _ <;> trivial
  case valueSize | valueGet =>
      simp only [valueLoop, Next.pc_goto]
      split <;> trivial
  case resetSize | resetGet =>
      simp only [resetLoop, Next.pc_goto]
      split <;> trivial

/-- Every thread's storages have the size they should have. -/
def AllSized (s : State T O) : Prop := ∀ t, s.Sized (s.pc t)

/-- A thread that does not move keeps its storages. -/
theorem AllSized.moved (sized : s.AllSized) (layout : s.Layout) (grows : Extends s s')
    (moves : ∀ u, s'.pc u = s.pc u ∨ s'.Sized (s'.pc u)) : s'.AllSized := by
  intro u
  rcases moves u with same | new
  · rw [same]
    exact grows.sized (layout.here u) (sized u)
  · exact new

theorem AllSized.after (layout : s.Layout) (sized : s.AllSized) (access : Access s t (s.pc t) e nx) :
    (s.after t e nx).AllSized := by
  refine sized.moved layout (layout.extends access) fun u => ?_
  by_cases same : u = t
  · subst same
    rw [after_pc_self]
    exact .inr (access_sized layout access (sized u))
  · exact .inl (after_pc_other same)

theorem AllSized.next [Fintype T] (layout : s.Layout) (sized : s.AllSized) {a : Action T O}
    (taken : s.next a = some s') : s'.AllSized := by
  have grows := layout.extends_next taken
  cases a with
  | make this k =>
      simp only [State.next] at taken
      split at taken
      · cases taken
      · cases taken
        refine sized.moved layout grows fun u => ?_
        cases k <;> exact .inl rfl
  | step t =>
      obtain ⟨e, nx, access, rfl⟩ := next_step taken
      exact sized.after layout access
  | add t _ _ | value t _ | reset t _ =>
      simp only [State.next] at taken
      split at taken
      · cases taken
        refine sized.moved layout grows fun u => ?_
        by_cases same : u = t
        · subst same
          simp [State.goto, Sized]
        · simp [State.goto, same]
      · cases taken
  | reclaim storage =>
      simp only [State.next] at taken
      split at taken
      · cases taken
        exact sized.moved layout grows fun _ => .inl rfl
      · cases taken

theorem allSized_init (hashCode : T → Word) : (init hashCode : State T O).AllSized :=
  fun _ => trivial

end State

end Ccmetrics.Striped
