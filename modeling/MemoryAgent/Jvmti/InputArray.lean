import MemoryAgent.Jvmti.Heap

/-
  A heap together with an array of objects that is passed
  to the agent or created by it.  No object of the heap
  refers to the array.

  Key definitions include:
    * `InputArray`
    * `InputArray.heap`
    * `InputArray.Around`

  Main results:
    * `InputArray.reachedAvoiding_iff`
-/

------------------------------------------------------------
-- Arrays
------------------------------------------------------------

namespace MemoryAgent

namespace Reference

variable {O P : Type}

def map
    (f : O → P)
    (r : Reference O) : Reference P where
  kind := r.kind
  info := r.info
  referee := f r.referee

end Reference

/-
  The elements of an array, and the roots that come with it:
  roots of the array itself and JNI references.
-/
structure InputArray (O : Type) where
  elements : List O
  size : jlong
  classOf : O
  roots : List (Reference (Option O))
  size_pos : 0 < size
  roots_isRoot : ∀ r ∈ roots, r.kind.isRoot = true
  roots_ignored :
    ∀ r ∈ roots, r.kind.isJni = true ∨ r.referee = none

namespace InputArray

variable {O : Type}

/- The reference to the element with an index. -/
def elementReference
    (element : O × Nat) : Reference (Option O) where
  kind := .arrayElement
  info := .index element.2
  referee := some element.1

/- The heap with the array, which is the object `none`. -/
def heap
    (array : InputArray O)
    (h : Heap O) : Heap (Option O) where
  roots := h.roots.map (Reference.map some) ++ array.roots
  references := fun
    | none => array.elements.zipIdx.map elementReference
    | some o => (h.references o).map (Reference.map some)
  size := fun
    | none => array.size
    | some o => h.size o
  classOf := fun
    | none => some array.classOf
    | some o => some (h.classOf o)
  roots_isRoot := by
    intro r hMem
    rcases List.mem_append.mp hMem with hOld | hNew
    · rcases List.mem_map.mp hOld with ⟨x, hX, rfl⟩
      exact h.roots_isRoot x hX
    · exact array.roots_isRoot r hNew
  references_isHeld := by
    intro o r hMem
    cases o with
    | none =>
        rcases List.mem_map.mp hMem with ⟨x, _, rfl⟩
        rfl
    | some o =>
        rcases List.mem_map.mp hMem with ⟨x, hX, rfl⟩
        exact h.references_isHeld o x hX
  size_pos := by
    intro o
    cases o with
    | none => exact array.size_pos
    | some o => exact h.size_pos o

/- A set of objects of the heap, and the array. -/
def Around (X : O → Prop) : Option O → Prop
| none => True
| some o => X o

------------------------------------------------------------
-- Paths
------------------------------------------------------------

variable (array : InputArray O)
variable (h : Heap O)

theorem refers_some_iff
    (a : O)
    (b : Option O) :
    (array.heap h).Refers (some a) b ↔
      ∃ o, b = some o ∧ h.Refers a o := by
  constructor
  · rintro ⟨r, hMem, hReferee⟩
    rcases List.mem_map.mp hMem with ⟨x, hX, rfl⟩
    exact ⟨x.referee, hReferee.symm, x, hX, rfl⟩
  · rintro ⟨o, hEq, x, hX, hReferee⟩
    refine ⟨x.map some, List.mem_map.mpr ⟨x, hX, rfl⟩, ?_⟩
    rw [hEq, ← hReferee]
    rfl

theorem refers_none_iff
    (b : Option O) :
    (array.heap h).Refers none b ↔
      ∃ o ∈ array.elements, b = some o := by
  constructor
  · rintro ⟨r, hMem, hReferee⟩
    rcases List.mem_map.mp hMem with ⟨⟨o, i⟩, hX, rfl⟩
    have hElement := List.fst_mem_of_mem_zipIdx hX
    exact ⟨o, hElement, hReferee.symm⟩
  · rintro ⟨o, hMem, hEq⟩
    rcases List.mem_iff_getElem.mp hMem with ⟨i, hLt, hGet⟩
    refine ⟨elementReference (o, i), ?_, hEq.symm⟩
    apply List.mem_map.mpr
    refine ⟨(o, i), ?_, rfl⟩
    rw [List.mem_zipIdx_iff_getElem?]
    rw [← hGet]
    exact List.getElem?_eq_getElem hLt

/-
  Around the array, the objects that the roots reach are
  those they reach in the heap without it.
-/
theorem reachedAvoiding_iff
    (X : O → Prop)
    (o : O) :
    (array.heap h).ReachedAvoiding (Around X) (some o) ↔
      h.ReachedAvoiding X o := by
  constructor
  · intro hReached
    have hFrom :
        ∀ x, (array.heap h).ReachedAvoiding (Around X) x →
          ∃ p, x = some p ∧ h.ReachedAvoiding X p := by
      intro x hX
      induction hX with
      | @root r hMem hKind hAvoid =>
          rcases List.mem_append.mp hMem with hOld | hNew
          · rcases List.mem_map.mp hOld with ⟨y, hY, rfl⟩
            exact ⟨y.referee, rfl,
              .root hY hKind hAvoid⟩
          · rcases array.roots_ignored r hNew with
              hJni | hNone
            · rw [hKind] at hJni
              cases hJni
            · rw [hNone] at hAvoid
              exact absurd trivial hAvoid
      | @step a b _ hStep hAvoid ih =>
          rcases ih with ⟨p, hEq, hReachedP⟩
          rw [hEq] at hStep
          rcases (array.refers_some_iff h p b).mp hStep with
            ⟨q, hEqQ, hRefers⟩
          rw [hEqQ] at hAvoid
          exact ⟨q, hEqQ, .step hReachedP hRefers hAvoid⟩
    rcases hFrom (some o) hReached with ⟨p, hEq, hReachedP⟩
    rw [Option.some.inj hEq]
    exact hReachedP
  · intro hReached
    induction hReached with
    | @root r hMem hKind hAvoid =>
        exact .root (r := r.map some)
          (List.mem_append_left _
            (List.mem_map.mpr ⟨r, hMem, rfl⟩))
          hKind hAvoid
    | step _ hRefers hAvoid ih =>
        exact .step ih
          ((array.refers_some_iff h _ _).mpr
            ⟨_, rfl, hRefers⟩)
          hAvoid

end InputArray

end MemoryAgent
