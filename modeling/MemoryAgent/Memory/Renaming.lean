import MemoryAgent.Memory.Store

/-
  Stores that hold the same records at different addresses.
  A relation tells which addresses match; each creation adds
  the two new ones to it, and drops what was at them before.

  Key definitions include:
    * `RecordStore.Matches`
    * `RecordStore.addMatch`

  Main results:
    * `RecordStore.rel_bind`
    * `RecordStore.Matches.create`
    * `RecordStore.Matches.set`
    * `RecordStore.Matches.delete`
-/

------------------------------------------------------------
-- Partial Results
------------------------------------------------------------

namespace RecordStore

section Partial

variable {α β α' β' : Type}
variable {P : α → β → Prop}
variable {Q : α' → β' → Prop}
variable {x : Option α}
variable {y : Option β}

/- Either both computations fail, or the results match. -/
theorem rel_cases
    (hRel : Option.Rel P x y) :
    (x = none ∧ y = none) ∨
      ∃ a b, x = some a ∧ y = some b ∧ P a b := by
  cases hRel with
  | none => exact Or.inl ⟨rfl, rfl⟩
  | some hP => exact Or.inr ⟨_, _, rfl, rfl, hP⟩

theorem rel_bind
    {f : α → Option α'}
    {g : β → Option β'}
    (hRel : Option.Rel P x y)
    (hNext : ∀ a b, P a b → Option.Rel Q (f a) (g b)) :
    Option.Rel Q (x.bind f) (y.bind g) := by
  cases hRel with
  | none => exact .none
  | some hP => exact hNext _ _ hP

theorem rel_map
    {f : α → α'}
    {g : β → β'}
    (hRel : Option.Rel P x y)
    (hNext : ∀ a b, P a b → Q (f a) (g b)) :
    Option.Rel Q (x.map f) (y.map g) := by
  cases hRel with
  | none => exact .none
  | some hP => exact .some (hNext _ _ hP)

/- A value that both computations read alike. -/
theorem rel_bind_eq
    {z z' : Option α}
    {f : α → Option α'}
    {g : α → Option β'}
    (hEq : z = z')
    (hNext : ∀ a, z = some a → Option.Rel Q (f a) (g a)) :
    Option.Rel Q (z.bind f) (z'.bind g) := by
  rw [← hEq]
  cases z with
  | none => exact .none
  | some a => exact hNext a rfl

end Partial

------------------------------------------------------------
-- Matching Stores
------------------------------------------------------------

variable {R : Type}
variable {rel : Int → Int → Prop}
variable {s t : Store R}
variable {a b x y : Int}

/- Matching addresses lead to the same records. -/
structure Matches
    (rel : Int → Int → Prop)
    (s t : Store R) : Prop where
  unique :
    ∀ {a b a' b'}, rel a b → rel a' b' → (a = a' ↔ b = b')
  get : ∀ {a b}, rel a b → s.get a = t.get b

/- Two more addresses match, and no others match them. -/
def addMatch
    (rel : Int → Int → Prop)
    (a b : Int) : Int → Int → Prop :=
  fun x y => (x = a ∧ y = b) ∨ (rel x y ∧ x ≠ a ∧ y ≠ b)

theorem addMatch_self :
    addMatch rel a b a b :=
  Or.inl ⟨rfl, rfl⟩

theorem addMatch_of_ne
    (hRel : rel x y)
    (hLeft : x ≠ a)
    (hRight : y ≠ b) :
    addMatch rel a b x y :=
  Or.inr ⟨hRel, hLeft, hRight⟩

theorem Matches.create
    {reserved reserved' : List Int}
    (alloc : Allocator reserved)
    (alloc' : Allocator reserved')
    (hMatches : Matches rel s t)
    (record : R) :
    Matches
      (addMatch rel (s.nextAddress alloc)
        (t.nextAddress alloc'))
      (s.create alloc record) (t.create alloc' record) := by
  constructor
  · rintro a b a' b' (⟨hA, hB⟩ | ⟨hRel, hA, hB⟩)
      (⟨hA', hB'⟩ | ⟨hRel', hA', hB'⟩)
    · rw [hA, hB, hA', hB']
      exact iff_of_true rfl rfl
    · rw [hA, hB]
      exact iff_of_false (Ne.symm hA') (Ne.symm hB')
    · rw [hA', hB']
      exact iff_of_false hA hB
    · exact hMatches.unique hRel hRel'
  · rintro a b (⟨hA, hB⟩ | ⟨hRel, hA, hB⟩)
    · rw [Store.get_create, Store.get_create, if_pos hA,
        if_pos hB]
    · rw [Store.get_create, Store.get_create, if_neg hA,
        if_neg hB]
      exact hMatches.get hRel

theorem Matches.set
    (hMatches : Matches rel s t)
    (hRel : rel a b)
    (hLive : s.get a ≠ none)
    (record : R) :
    Matches rel (s.set a record) (t.set b record) := by
  refine ⟨hMatches.unique, ?_⟩
  intro x y hXY
  have hLive' : t.get b ≠ none := by
    rw [← hMatches.get hRel]
    exact hLive
  rw [Store.get_set hLive, Store.get_set hLive']
  by_cases hEq : x = a
  · rw [if_pos hEq,
      if_pos ((hMatches.unique hXY hRel).mp hEq)]
  · rw [if_neg hEq,
      if_neg (mt (hMatches.unique hXY hRel).mpr hEq)]
    exact hMatches.get hXY

theorem Matches.delete
    (hMatches : Matches rel s t)
    (hRel : rel a b) :
    Matches rel (s.delete a) (t.delete b) := by
  refine ⟨hMatches.unique, ?_⟩
  intro x y hXY
  rw [Store.get_delete, Store.get_delete]
  by_cases hEq : x = a
  · rw [if_pos hEq,
      if_pos ((hMatches.unique hXY hRel).mp hEq)]
  · rw [if_neg hEq,
      if_neg (mt (hMatches.unique hXY hRel).mpr hEq)]
    exact hMatches.get hXY

end RecordStore
