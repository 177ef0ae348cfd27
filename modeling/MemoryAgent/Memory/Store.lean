import Mathlib.Data.List.Nodup
import Mathlib.Data.List.Perm.Basic
import Mathlib.Algebra.Order.Ring.Int

/-
  A store of records that are created at fresh addresses,
  changed in place and deleted.  Addresses may be used again
  after a deletion; serial numbers tell the records apart.

  Key definitions include:
    * `RecordStore.Allocator`
    * `RecordStore.ascending`
    * `RecordStore.Store`
    * `RecordStore.Store.get`
    * `RecordStore.Store.create`
    * `RecordStore.Store.set`
    * `RecordStore.Store.delete`

  Main results:
    * `RecordStore.Store.get_create`
    * `RecordStore.Store.get_set`
    * `RecordStore.Store.get_delete`
    * `RecordStore.Store.length_delete`
    * `RecordStore.Store.deleted_perm`
-/

------------------------------------------------------------
-- Stores
------------------------------------------------------------

namespace RecordStore

/-
  An allocator gives out addresses that are neither in use
  nor reserved.  Its choice may depend on how many records
  were created before.
-/
structure Allocator (reserved : List Int) where
  next : Nat → List Int → Int
  fresh : ∀ n used, next n used ∉ used
  not_reserved : ∀ n used, next n used ∉ reserved

theorem le_foldr_max
    (bound : Int)
    (used : List Int) :
    bound ≤ used.foldr max bound ∧
      ∀ a ∈ used, a ≤ used.foldr max bound := by
  induction used with
  | nil => exact ⟨le_refl bound, by simp⟩
  | cons b used ih =>
      rw [List.foldr_cons]
      refine ⟨ih.1.trans (le_max_right b _), ?_⟩
      intro a hMem
      rcases List.mem_cons.mp hMem with hEq | hRest
      · rw [hEq]
        exact le_max_left b _
      · exact (ih.2 a hRest).trans (le_max_right b _)

/- The next address above a bound and those in use. -/
def ascending
    {reserved : List Int}
    (bound : Int)
    (hBound : ∀ a ∈ reserved, a ≤ bound) :
    Allocator reserved where
  next := fun _ used => used.foldr max bound + 1
  fresh := by
    intro _ used hMem
    have hLe := (le_foldr_max bound used).2 _ hMem
    omega
  not_reserved := by
    intro _ used hMem
    have hLe := hBound _ hMem
    have hGe := (le_foldr_max bound used).1
    omega

/- A record that was created and not yet deleted. -/
structure Cell (R : Type) where
  address : Int
  serial : Nat
  record : R

/-
  The cells have different addresses, and every serial
  number given out so far is that of one cell or of one
  deletion.
-/
structure Store (R : Type) where
  cells : List (Cell R)
  created : Nat
  deleted : List Nat
  addresses_nodup : (cells.map Cell.address).Nodup
  serials_perm :
    (cells.map Cell.serial ++ deleted).Perm
      (List.range created)

namespace Store

variable {R : Type}

def empty : Store R where
  cells := []
  created := 0
  deleted := []
  addresses_nodup := List.nodup_nil
  serials_perm := List.Perm.refl _

def addresses (s : Store R) : List Int :=
  s.cells.map Cell.address

/- The record at an address, unless it was deleted. -/
def get
    (s : Store R)
    (a : Int) : Option R :=
  (s.cells.find? (fun c => c.address == a)).map Cell.record

/- The address that a new record gets. -/
def nextAddress
    {reserved : List Int}
    (alloc : Allocator reserved)
    (s : Store R) : Int :=
  alloc.next s.created s.addresses

def create
    {reserved : List Int}
    (alloc : Allocator reserved)
    (s : Store R)
    (record : R) : Store R where
  cells :=
    ⟨nextAddress alloc s, s.created, record⟩ :: s.cells
  created := s.created + 1
  deleted := s.deleted
  addresses_nodup :=
    List.nodup_cons.mpr
      ⟨alloc.fresh _ _, s.addresses_nodup⟩
  serials_perm := by
    rw [List.range_succ, List.map_cons, List.cons_append]
    exact (s.serials_perm.cons s.created).trans
      (List.perm_append_singleton _ _).symm

/- Change one record in place. -/
def set
    (s : Store R)
    (a : Int)
    (record : R) : Store R where
  cells :=
    s.cells.map
      (fun c =>
        if c.address = a then { c with record := record }
        else c)
  created := s.created
  deleted := s.deleted
  addresses_nodup := by
    have hSame :
        (s.cells.map (fun c =>
            if c.address = a then { c with record := record }
            else c)).map Cell.address =
          s.cells.map Cell.address := by
      rw [List.map_map]
      apply List.map_congr_left
      intro c _
      by_cases hEq : c.address = a
      · simp [hEq]
      · simp [hEq]
    rw [hSame]
    exact s.addresses_nodup
  serials_perm := by
    have hSame :
        (s.cells.map (fun c =>
            if c.address = a then { c with record := record }
            else c)).map Cell.serial =
          s.cells.map Cell.serial := by
      rw [List.map_map]
      apply List.map_congr_left
      intro c _
      by_cases hEq : c.address = a
      · simp [hEq]
      · simp [hEq]
    rw [hSame]
    exact s.serials_perm

/- Delete the record at an address. -/
def delete
    (s : Store R)
    (a : Int) : Store R where
  cells := s.cells.filter (fun c => c.address ≠ a)
  created := s.created
  deleted :=
    (s.cells.filter (fun c => c.address = a)).map
      Cell.serial ++ s.deleted
  addresses_nodup :=
    s.addresses_nodup.sublist
      (List.filter_sublist.map Cell.address)
  serials_perm := by
    have hSplit :
        (s.cells.filter (fun c => c.address ≠ a) ++
            s.cells.filter (fun c => c.address = a)).Perm
          s.cells := by
      have hPerm :=
        List.filter_append_perm
          (fun c : Cell R => decide (c.address ≠ a)) s.cells
      simpa using hPerm
    have hSerials := hSplit.map Cell.serial
    rw [List.map_append] at hSerials
    rw [← List.append_assoc]
    exact (hSerials.append_right s.deleted).trans
      s.serials_perm

------------------------------------------------------------
-- Access
------------------------------------------------------------

variable {s : Store R}
variable {a b : Int}
variable {record : R}

theorem get_eq_none_iff :
    s.get a = none ↔ a ∉ s.addresses := by
  unfold get addresses
  rw [Option.map_eq_none_iff, List.find?_eq_none]
  simp

section Create

variable {reserved : List Int}
variable (alloc : Allocator reserved)

theorem get_nextAddress :
    s.get (nextAddress alloc s) = none :=
  get_eq_none_iff.mpr (alloc.fresh _ _)

theorem nextAddress_not_reserved :
    nextAddress alloc s ∉ reserved :=
  alloc.not_reserved _ _

theorem get_create
    (a : Int) :
    (s.create alloc record).get a =
      if a = nextAddress alloc s then some record
      else s.get a := by
  unfold get create
  by_cases hEq : a = nextAddress alloc s
  · simp [hEq]
  · have hNe : ¬ nextAddress alloc s = a := Ne.symm hEq
    simp [hEq, hNe]

end Create

theorem get_set
    (hLive : s.get a ≠ none)
    (b : Int) :
    (s.set a record).get b =
      if b = a then some record else s.get b := by
  have hMem : a ∈ s.addresses := by
    by_contra hNot
    exact hLive (get_eq_none_iff.mpr hNot)
  have hFind :
      ∀ cells : List (Cell R),
        (cells.map (fun c =>
            if c.address = a then { c with record := record }
            else c)).find? (fun c => c.address == b) =
          (cells.find? (fun c => c.address == b)).map
            (fun c =>
              if c.address = a then
                { c with record := record }
              else c) := by
    intro cells
    rw [List.find?_map]
    congr 2
    funext c
    by_cases hEq : c.address = a
    · simp [hEq]
    · simp [hEq]
  unfold get set
  rw [hFind]
  by_cases hEq : b = a
  · subst hEq
    rcases List.mem_map.mp hMem with ⟨c, hC, hAddress⟩
    cases hFound :
        s.cells.find? (fun c => c.address == b) with
    | none =>
        have hNone := List.find?_eq_none.mp hFound c hC
        simp [hAddress] at hNone
    | some d =>
        have hD := List.find?_some hFound
        simp only [beq_iff_eq] at hD
        simp [hD]
  · cases hFound :
        s.cells.find? (fun c => c.address == b) with
    | none => simp [hEq]
    | some d =>
        have hD := List.find?_some hFound
        simp only [beq_iff_eq] at hD
        simp [hEq, hD]

theorem get_delete
    (b : Int) :
    (s.delete a).get b =
      if b = a then none else s.get b := by
  unfold get delete
  by_cases hEq : b = a
  · subst hEq
    simp [List.find?_eq_none]
  · have hFind :
        (s.cells.filter
            (fun c => decide (c.address ≠ a))).find?
            (fun c => c.address == b) =
          s.cells.find? (fun c => c.address == b) := by
      rw [List.find?_filter]
      congr 1
      funext c
      by_cases hB : c.address = b
      · simp [hB, hEq]
      · simp [hB]
    rw [if_neg hEq, hFind]

------------------------------------------------------------
-- Number of Records
------------------------------------------------------------

theorem length_create
    {reserved : List Int}
    (alloc : Allocator reserved) :
    (s.create alloc record).cells.length =
      s.cells.length + 1 :=
  rfl

theorem length_set :
    (s.set a record).cells.length = s.cells.length :=
  List.length_map _

/- One record is deleted, since addresses are different. -/
theorem length_delete
    (hLive : s.get a ≠ none) :
    (s.delete a).cells.length + 1 = s.cells.length := by
  have hMem : a ∈ s.addresses := by
    by_contra hNot
    exact hLive (get_eq_none_iff.mpr hNot)
  have hOne :
      s.cells.countP (fun c => decide (c.address = a)) =
        1 := by
    have hCount :=
      List.count_eq_one_of_mem s.addresses_nodup hMem
    rw [List.count_eq_countP, List.countP_map] at hCount
    exact hCount
  have hSplit :=
    List.length_eq_countP_add_countP
      (fun c : Cell R => decide (c.address = a)) (l := s.cells)
  have hRest :
      (s.delete a).cells.length =
        s.cells.countP
          (fun c => decide ¬ decide (c.address = a) = true) := by
    unfold delete
    rw [List.countP_eq_length_filter]
    simp
  omega

------------------------------------------------------------
-- Deletions
------------------------------------------------------------

theorem cells_eq_nil
    (hNone : ∀ a, s.get a = none) :
    s.cells = [] := by
  apply List.eq_nil_iff_forall_not_mem.mpr
  intro c hMem
  exact get_eq_none_iff.mp (hNone c.address)
    (List.mem_map.mpr ⟨c, hMem, rfl⟩)

/-
  When no record is left, each one ever created was deleted
  exactly once.
-/
theorem deleted_perm
    (hNone : ∀ a, s.get a = none) :
    s.deleted.Perm (List.range s.created) := by
  have hPerm := s.serials_perm
  rw [cells_eq_nil hNone] at hPerm
  exact hPerm

end Store

end RecordStore
