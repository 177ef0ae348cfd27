import Mathlib.Data.Fintype.Card
import MemoryAgent.Memory.Store

/-
  Reference counting over a store of records: each live
  record holds the number of its owners, and a record without
  owners is not live.

  Key definitions include:
    * `RecordStore.size`
    * `RecordStore.Counted`
    * `RecordStore.owners`

  Main results:
    * `RecordStore.Counted.create`
    * `RecordStore.Counted.set`
    * `RecordStore.Counted.delete`
    * `RecordStore.owners_update`
-/

------------------------------------------------------------
-- Sizes of Stores
------------------------------------------------------------

namespace RecordStore

namespace Store

variable {R : Type}
variable {s : Store R}
variable {a : Int}
variable {record : R}

/- The number of live records. -/
def size (s : Store R) : Nat :=
  s.cells.length

@[simp] theorem size_empty :
    (empty : Store R).size = 0 :=
  rfl

@[simp] theorem size_create
    {reserved : List Int}
    (alloc : Allocator reserved) :
    (s.create alloc record).size = s.size + 1 :=
  rfl

@[simp] theorem size_set :
    (s.set a record).size = s.size :=
  List.length_map _

theorem size_delete
    (hLive : s.get a ≠ none) :
    (s.delete a).size + 1 = s.size := by
  have hMem : a ∈ s.addresses := by
    by_contra hNot
    exact hLive (get_eq_none_iff.mpr hNot)
  have hCount :
      ∀ cells : List (Cell R),
        (cells.map Cell.address).Nodup →
          a ∈ cells.map Cell.address →
            (cells.filter
                (fun c => c.address ≠ a)).length + 1 =
              cells.length := by
    intro cells hNodup hIn
    induction cells with
    | nil => cases hIn
    | cons c cells ih =>
        rw [List.map_cons, List.nodup_cons] at hNodup
        by_cases hEq : c.address = a
        · have hKeep :
              cells.filter (fun c => c.address ≠ a) =
                cells := by
            apply List.filter_eq_self.mpr
            intro d hD
            simp only [decide_eq_true_eq]
            intro hSame
            apply hNodup.1
            rw [hEq, ← hSame]
            exact List.mem_map_of_mem hD
          rw [List.filter_cons_of_neg (by simp [hEq]), hKeep]
          rfl
        · have hRest : a ∈ cells.map Cell.address := by
            rcases List.mem_cons.mp hIn with hHead | hTail
            · exact absurd hHead.symm hEq
            · exact hTail
          rw [List.filter_cons_of_pos (by simp [hEq]),
            List.length_cons, ih hNodup.2 hRest]
          rfl
  exact hCount s.cells s.addresses_nodup hMem

theorem size_eq_zero
    (hNone : ∀ a, s.get a = none) :
    s.size = 0 := by
  apply List.length_eq_zero_iff.mpr
  apply List.eq_nil_iff_forall_not_mem.mpr
  intro c hMem
  exact get_eq_none_iff.mp (hNone c.address)
    (List.mem_map.mpr ⟨c, hMem, rfl⟩)

end Store

------------------------------------------------------------
-- Counts
------------------------------------------------------------

/-
  `count` is the number of owners of each address, and
  `refCount` the number that a record holds.
-/
structure Counted
    {R : Type}
    (refCount : R → Nat)
    (count : Int → Nat)
    (s : Store R) : Prop where
  live :
    ∀ a r, s.get a = some r →
      refCount r = count a ∧ count a ≠ 0
  free : ∀ a, s.get a = none → count a = 0

namespace Counted

variable {R : Type}
variable {refCount : R → Nat}
variable {count : Int → Nat}
variable {s : Store R}
variable {a : Int}
variable {record : R}

theorem exists_get
    (hCounted : Counted refCount count s)
    (hCount : count a ≠ 0) :
    ∃ r, s.get a = some r := by
  cases hGet : s.get a with
  | none => exact absurd (hCounted.free a hGet) hCount
  | some r => exact ⟨r, rfl⟩

/- A new record has one owner. -/
theorem create
    {reserved : List Int}
    (alloc : Allocator reserved)
    (hCounted : Counted refCount count s)
    (hOne : refCount record = 1) :
    Counted refCount
      (Function.update count (s.nextAddress alloc) 1)
      (s.create alloc record) := by
  constructor
  · intro b r hGet
    rw [Store.get_create] at hGet
    by_cases hEq : b = s.nextAddress alloc
    · subst hEq
      rw [if_pos rfl] at hGet
      rw [Function.update_self, ← Option.some.inj hGet]
      exact ⟨hOne, one_ne_zero⟩
    · rw [if_neg hEq] at hGet
      rw [Function.update_of_ne hEq]
      exact hCounted.live b r hGet
  · intro b hGet
    rw [Store.get_create] at hGet
    by_cases hEq : b = s.nextAddress alloc
    · rw [if_pos hEq] at hGet
      cases hGet
    · rw [if_neg hEq] at hGet
      rw [Function.update_of_ne hEq]
      exact hCounted.free b hGet

/- The count of a live record changes. -/
theorem set
    (hCounted : Counted refCount count s)
    (hLive : s.get a ≠ none)
    (hPos : refCount record ≠ 0) :
    Counted refCount
      (Function.update count a (refCount record))
      (s.set a record) := by
  constructor
  · intro b r hGet
    rw [Store.get_set hLive] at hGet
    by_cases hEq : b = a
    · rw [if_pos hEq] at hGet
      rw [hEq, Function.update_self, ← Option.some.inj hGet]
      exact ⟨rfl, hPos⟩
    · rw [if_neg hEq] at hGet
      rw [Function.update_of_ne hEq]
      exact hCounted.live b r hGet
  · intro b hGet
    rw [Store.get_set hLive] at hGet
    by_cases hEq : b = a
    · rw [if_pos hEq] at hGet
      cases hGet
    · rw [if_neg hEq] at hGet
      rw [Function.update_of_ne hEq]
      exact hCounted.free b hGet

/- A live record changes, but not its count. -/
theorem set_same
    (hCounted : Counted refCount count s)
    {r : R}
    (hGet : s.get a = some r)
    (hSame : refCount record = refCount r) :
    Counted refCount count (s.set a record) := by
  rcases hCounted.live a r hGet with ⟨hEq, hPos⟩
  have hLive : s.get a ≠ none := by
    rw [hGet]
    exact Option.some_ne_none r
  have hSet :=
    hCounted.set hLive
      (by rw [hSame, hEq]; exact hPos)
  rw [hSame, hEq, Function.update_eq_self] at hSet
  exact hSet

/- The last owner of a record is gone. -/
theorem delete
    (hCounted : Counted refCount count s) :
    Counted refCount (Function.update count a 0)
      (s.delete a) := by
  constructor
  · intro b r hGet
    rw [Store.get_delete] at hGet
    by_cases hEq : b = a
    · rw [if_pos hEq] at hGet
      cases hGet
    · rw [if_neg hEq] at hGet
      rw [Function.update_of_ne hEq]
      exact hCounted.live b r hGet
  · intro b hGet
    rw [Store.get_delete] at hGet
    by_cases hEq : b = a
    · rw [hEq, Function.update_self]
    · rw [if_neg hEq] at hGet
      rw [Function.update_of_ne hEq]
      exact hCounted.free b hGet

end Counted

------------------------------------------------------------
-- Owners
------------------------------------------------------------

section Owners

variable {O : Type}
variable [Fintype O]
variable {reserved : List Int}
variable {tag : O → Int}
variable {o : O}
variable {a b : Int}

/-
  The number of objects that hold an address.  Reserved
  addresses have no owners.
-/
def owners
    (reserved : List Int)
    (tag : O → Int)
    (a : Int) : Nat :=
  if a ∈ reserved then 0
  else (Finset.univ.filter (fun o => tag o = a)).card

/- One owner more, and one less. -/
def gain
    (reserved : List Int)
    (count : Int → Nat)
    (a : Int) : Int → Nat :=
  if a ∈ reserved then count
  else Function.update count a (count a + 1)

def lose
    (reserved : List Int)
    (count : Int → Nat)
    (a : Int) : Int → Nat :=
  if a ∈ reserved then count
  else Function.update count a (count a - 1)

theorem owners_ne_zero
    (hReserved : tag o ∉ reserved) :
    owners reserved tag (tag o) ≠ 0 := by
  unfold owners
  rw [if_neg hReserved]
  apply Finset.card_ne_zero.mpr
  exact ⟨o, Finset.mem_filter.mpr ⟨Finset.mem_univ o, rfl⟩⟩

theorem exists_owner
    (hCount : owners reserved tag a ≠ 0) :
    a ∉ reserved ∧ ∃ o, tag o = a := by
  unfold owners at hCount
  split at hCount
  · exact absurd rfl hCount
  · next hNot =>
      rcases Finset.card_ne_zero.mp hCount with ⟨o, hMem⟩
      exact ⟨hNot, o, (Finset.mem_filter.mp hMem).2⟩

theorem owners_lt
    (hNe : tag o ≠ a) :
    owners reserved tag a < Fintype.card O := by
  unfold owners
  by_cases hReserved : a ∈ reserved
  · rw [if_pos hReserved]
    exact Fintype.card_pos_iff.mpr ⟨o⟩
  · rw [if_neg hReserved]
    apply Finset.card_lt_univ_of_notMem (x := o)
    intro hMem
    exact hNe (Finset.mem_filter.mp hMem).2

theorem owners_le :
    owners reserved tag a ≤ Fintype.card O := by
  unfold owners
  by_cases hReserved : a ∈ reserved
  · simp [hReserved]
  · rw [if_neg hReserved]
    exact Finset.card_le_univ _

variable [DecidableEq O]

/- An object lets go of one address and takes another. -/
theorem owners_update
    (hNe : b ≠ tag o) :
    owners reserved (Function.update tag o b) =
      lose reserved (gain reserved (owners reserved tag) b)
        (tag o) := by
  funext a
  have hOthers :
      ∀ p, p ≠ o → Function.update tag o b p = tag p :=
    fun p hP => Function.update_of_ne hP _ _
  have hSelf : Function.update tag o b o = b :=
    Function.update_self _ _ _
  by_cases hReserved : a ∈ reserved
  · have hNot :
        ∀ c, c ∉ reserved → a ≠ c :=
      fun c hC hEq => hC (hEq ▸ hReserved)
    have hOld :
        gain reserved (owners reserved tag) b a = 0 := by
      unfold gain
      split
      · exact if_pos hReserved
      · rename_i hB
        rw [Function.update_of_ne (hNot b hB)]
        exact if_pos hReserved
    have hNew :
        lose reserved (gain reserved (owners reserved tag) b)
          (tag o) a = 0 := by
      unfold lose
      split
      · exact hOld
      · rename_i hO
        rw [Function.update_of_ne (hNot _ hO)]
        exact hOld
    rw [hNew]
    exact if_pos hReserved
  · have hCount :
        ∀ tag' : O → Int,
          owners reserved tag' a =
            (Finset.univ.filter (fun p => tag' p = a)).card :=
      fun _ => if_neg hReserved
    by_cases hB : a = b
    · -- `o` becomes an owner.
      subst hB
      have hFilter :
          Finset.univ.filter
              (fun p => Function.update tag o a p = a) =
            insert o
              (Finset.univ.filter (fun p => tag p = a)) := by
        ext p
        by_cases hP : p = o
        · simp [hP]
        · simp [hP]
      have hNotMem :
          o ∉ Finset.univ.filter (fun p => tag p = a) := by
        simp [hNe.symm]
      rw [hCount, hFilter,
        Finset.card_insert_of_notMem hNotMem, ← hCount]
      have hGain :
          gain reserved (owners reserved tag) a a =
            owners reserved tag a + 1 := by
        unfold gain
        rw [if_neg hReserved, Function.update_self]
      unfold lose
      split
      · exact hGain.symm
      · rw [Function.update_of_ne hNe]
        exact hGain.symm
    · have hGain :
          gain reserved (owners reserved tag) b a =
            owners reserved tag a := by
        unfold gain
        split
        · rfl
        · exact Function.update_of_ne hB _ _
      by_cases hO : a = tag o
      · -- `o` was an owner.
        subst hO
        have hFilter :
            Finset.univ.filter
                (fun p => Function.update tag o b p = tag o) =
              (Finset.univ.filter
                (fun p => tag p = tag o)).erase o := by
          ext p
          by_cases hP : p = o
          · simp [hP, hNe]
          · simp [hP]
        have hMem :
            o ∈ Finset.univ.filter
              (fun p => tag p = tag o) := by
          simp
        unfold lose
        rw [if_neg hReserved, Function.update_self, hGain,
          hCount, hFilter, Finset.card_erase_of_mem hMem,
          ← hCount]
      · -- Nothing changes for the others.
        have hFilter :
            Finset.univ.filter
                (fun p => Function.update tag o b p = a) =
              Finset.univ.filter (fun p => tag p = a) := by
          ext p
          by_cases hP : p = o
          · simp [hP, Ne.symm hB, Ne.symm hO]
          · simp [hP]
        rw [hCount, hFilter, ← hCount]
        unfold lose
        split
        · exact hGain.symm
        · rw [Function.update_of_ne hO]
          exact hGain.symm

end Owners

end RecordStore
