import Mathlib.Data.List.Basic
import Mathlib.Logic.Function.Basic
import Mathlib.Tactic.Common

/-
  Vectors with signed indices.  An access outside a vector
  has no result.  A vector is the table of a function, and
  a write to it updates the function.

  Key definitions include:
    * `StdVector.read`
    * `StdVector.write`
    * `StdVector.tabulate`

  Main results:
    * `StdVector.read_tabulate`
    * `StdVector.write_tabulate`
-/

------------------------------------------------------------
-- Accesses
------------------------------------------------------------

namespace StdVector

variable {α : Type}

/- `InRange n i`: a vector of size `n` has the index `i`. -/
def InRange
    (n : Nat)
    (i : Int) : Prop :=
  0 ≤ i ∧ i < n

instance
    (n : Nat)
    (i : Int) :
    Decidable (InRange n i) :=
  inferInstanceAs (Decidable (_ ∧ _))

def read
    (xs : List α)
    (i : Int) : Option α :=
  if 0 ≤ i then xs[i.toNat]? else none

def write
    (xs : List α)
    (i : Int)
    (x : α) : Option (List α) :=
  if InRange xs.length i then
    some (xs.set i.toNat x)
  else
    none

/- The vector of the values of `f` at its indices. -/
def tabulate
    (n : Nat)
    (f : Int → α) : List α :=
  (List.range n).map (fun (i : Nat) => f i)

------------------------------------------------------------
-- Tables
------------------------------------------------------------

@[simp]
theorem length_tabulate
    (n : Nat)
    (f : Int → α) :
    (tabulate n f).length = n := by
  simp [tabulate]

theorem inRange_natCast
    {n k : Nat} :
    InRange n (k : Int) ↔ k < n := by
  simp [InRange]

theorem read_tabulate
    {n : Nat}
    {i : Int}
    (f : Int → α)
    (hRange : InRange n i) :
    read (tabulate n f) i = some (f i) := by
  rcases hRange with ⟨hNonneg, hLt⟩
  have hIndex : i.toNat < n := by omega
  have hCast : (i.toNat : Int) = i :=
    Int.toNat_of_nonneg hNonneg
  simp [read, tabulate, hNonneg, hIndex, hCast]

theorem write_tabulate
    {n : Nat}
    {i : Int}
    (f : Int → α)
    (x : α)
    (hRange : InRange n i) :
    write (tabulate n f) i x =
      some (tabulate n (Function.update f i x)) := by
  have hWrite : InRange (tabulate n f).length i := by
    simpa using hRange
  rcases hRange with ⟨hNonneg, hLt⟩
  rw [write, if_pos hWrite]
  congr 1
  apply List.ext_getElem
  · simp
  · intro k hLeft hRight
    have hK : k < n := by simpa using hLeft
    rw [List.getElem_set]
    by_cases hEq : i.toNat = k
    · have hCast : (k : Int) = i := by omega
      rw [if_pos hEq]
      simp [tabulate, hCast]
    · have hNe : (k : Int) ≠ i := by omega
      rw [if_neg hEq]
      simp [tabulate, hNe]

/- Accesses to the vector of the values of `f`. -/
theorem read_map
    {β : Type}
    (f : α → β)
    (xs : List α)
    (i : Int) :
    read (xs.map f) i = (read xs i).map f := by
  unfold read
  split
  · exact List.getElem?_map ..
  · rfl

theorem write_map
    {β : Type}
    (f : α → β)
    (xs : List α)
    (i : Int)
    (x : α) :
    write (xs.map f) i (f x) =
      (write xs i x).map (List.map f) := by
  unfold write
  rw [List.length_map]
  split
  · rw [Option.map_some, List.map_set]
  · rfl

theorem read_eq_none_iff
    {xs : List α}
    {i : Int} :
    read xs i = none ↔ ¬ InRange xs.length i := by
  unfold read InRange
  by_cases hNonneg : 0 ≤ i
  · simp [hNonneg]
  · simp [hNonneg]

theorem exists_read
    {xs : List α}
    {i : Int}
    (hRange : InRange xs.length i) :
    ∃ x, read xs i = some x := by
  cases hRead : read xs i with
  | none => exact absurd hRange (read_eq_none_iff.mp hRead)
  | some x => exact ⟨x, rfl⟩

theorem inRange_of_read
    {xs : List α}
    {i : Int}
    {x : α}
    (hRead : read xs i = some x) :
    InRange xs.length i := by
  by_contra hNot
  rw [read_eq_none_iff.mpr hNot] at hRead
  cases hRead

theorem length_of_write
    {xs ys : List α}
    {i : Int}
    {x : α}
    (hWrite : write xs i x = some ys) :
    ys.length = xs.length := by
  unfold write at hWrite
  split at hWrite
  · rw [← Option.some.inj hWrite]
    exact List.length_set ..
  · cases hWrite

theorem mem_of_read
    {xs : List α}
    {i : Int}
    {x : α}
    (hRead : read xs i = some x) :
    x ∈ xs := by
  unfold read at hRead
  split at hRead
  · exact List.mem_of_getElem? hRead
  · cases hRead

theorem exists_read_of_mem
    {xs : List α}
    {x : α}
    (hMem : x ∈ xs) :
    ∃ i, read xs i = some x := by
  rcases List.mem_iff_getElem?.mp hMem with ⟨k, hGet⟩
  refine ⟨k, ?_⟩
  simpa [read] using hGet

theorem read_append_left
    {xs : List α}
    {x : α}
    (ys : List α)
    {i : Int}
    (hRead : read xs i = some x) :
    read (xs ++ ys) i = some x := by
  have hRange := inRange_of_read hRead
  rcases hRange with ⟨hNonneg, hLt⟩
  unfold read at hRead ⊢
  rw [if_pos hNonneg] at hRead ⊢
  rw [List.getElem?_append_left (by omega)]
  exact hRead

theorem read_append_last
    (xs : List α)
    (x : α) :
    read (xs ++ [x]) (xs.length : Int) = some x := by
  simp [read]

theorem read_append_cases
    {xs : List α}
    {x y : α}
    {i : Int}
    (hRead : read (xs ++ [y]) i = some x) :
    read xs i = some x ∨ (i = xs.length ∧ x = y) := by
  have hRange := inRange_of_read hRead
  rcases hRange with ⟨hNonneg, hLt⟩
  rw [List.length_append, List.length_singleton] at hLt
  by_cases hEq : i = xs.length
  · subst hEq
    rw [read_append_last] at hRead
    exact Or.inr ⟨rfl, (Option.some.inj hRead).symm⟩
  · have hOld : InRange xs.length i := by
      constructor
      · exact hNonneg
      · omega
    rcases exists_read hOld with ⟨z, hZ⟩
    have hSame := read_append_left [y] hZ
    rw [hRead] at hSame
    cases hSame
    exact Or.inl hZ

theorem read_set
    {xs : List α}
    {k : Int}
    (x : α)
    (i : Int)
    (hRange : InRange xs.length k) :
    read (xs.set k.toNat x) i =
      if i = k then some x else read xs i := by
  rcases hRange with ⟨hNonneg, hLt⟩
  have hIndex : k.toNat < xs.length := by omega
  by_cases hEq : i = k
  · subst hEq
    simp [read, hNonneg, hIndex]
  · rw [if_neg hEq]
    unfold read
    by_cases hI : 0 ≤ i
    · have hNe : k.toNat ≠ i.toNat := by omega
      rw [if_pos hI, if_pos hI, List.getElem?_set_ne hNe]
    · rw [if_neg hI, if_neg hI]

theorem read_modify
    {xs : List α}
    {k : Int}
    (f : α → α)
    {i : Int}
    (hRange : InRange xs.length k) :
    read (xs.modify k.toNat f) i =
      if i = k then (read xs i).map f else read xs i := by
  rcases hRange with ⟨hNonneg, hLt⟩
  unfold read
  by_cases hI : 0 ≤ i
  · rw [if_pos hI, if_pos hI, List.getElem?_modify]
    by_cases hEq : i = k
    · simp [hEq]
    · have hNe : k.toNat ≠ i.toNat := by omega
      simp [hEq, hNe]
  · have hNe : i ≠ k := by omega
    rw [if_neg hI, if_neg hI, if_neg hNe]

/- A loop over a vector in which every call succeeds. -/
theorem mapM_eq_some_map
    {β : Type}
    {f : α → Option β}
    {g : α → β}
    {xs : List α}
    (hSome : ∀ x ∈ xs, f x = some (g x)) :
    xs.mapM f = some (xs.map g) := by
  induction xs with
  | nil => rfl
  | cons x xs ih =>
      have hRest :=
        ih (fun y hMem =>
          hSome y (List.mem_cons_of_mem x hMem))
      simp [List.mapM_cons, hSome x List.mem_cons_self,
        hRest]

/- The results of such a loop. -/
theorem map_eq_of_mapM
    {β : Type}
    {f : α → Option β}
    {xs : List α}
    {ys : List β}
    (hSome : xs.mapM f = some ys) :
    xs.map f = ys.map some := by
  induction xs generalizing ys with
  | nil =>
      have hEq : [] = ys := Option.some.inj hSome
      rw [← hEq]
      rfl
  | cons x xs ih =>
      rw [List.mapM_cons] at hSome
      rcases Option.bind_eq_some_iff.mp hSome with
        ⟨y, hY, hRest⟩
      rcases Option.bind_eq_some_iff.mp hRest with
        ⟨zs, hZs, hEq⟩
      have hCons : y :: zs = ys := Option.some.inj hEq
      rw [← hCons, List.map_cons, List.map_cons, hY, ih hZs]

theorem tabulate_const
    (n : Nat)
    (x : α) :
    List.replicate n x = tabulate n (fun _ => x) := by
  simp [tabulate]

theorem tabulate_congr
    {n : Nat}
    {f g : Int → α}
    (hSame : ∀ i, InRange n i → f i = g i) :
    tabulate n f = tabulate n g := by
  apply List.map_congr_left
  intro k hMem
  exact hSame k (inRange_natCast.mpr (List.mem_range.mp hMem))

/- Every vector is a table. -/
theorem exists_tabulate
    (xs : List Int) :
    ∃ f, xs = tabulate xs.length f := by
  refine ⟨fun i => xs.getD i.toNat 0, ?_⟩
  apply List.ext_getElem
  · simp
  · intro k hLeft hRight
    simp [tabulate, hLeft]

end StdVector
