import Mathlib.Algebra.Order.BigOperators.Group.List
import MemoryAgent.Sizes.Tags.MergedInfos
import MemoryAgent.Sizes.Tags.Actions

/-
  The sums of sizes that the last iteration of an action
  builds from the infos of the tags.

  Key definitions include:
    * `SizesTags.sizeFor`
    * `SizesTags.calculateRetainedSizes`

  Main results:
    * `SizesTags.addSizes_getElem?`
    * `SizesTags.foldl_addSizes_getElem?`
    * `SizesTags.calculateRetainedSizes_eq`
-/

------------------------------------------------------------
-- Sums
------------------------------------------------------------

namespace MemoryAgent

namespace SizesTags

open RecordStore TagMemory TagInfoArray

/- What one tagged object adds to the result at an index. -/
def sizeFor
    (selects : BitVec 8 → Bool)
    (size : jlong)
    (infos : List TagInfo)
    (i : Nat) : jlong :=
  if (stateAt infos i).any selects = true then size else 0

theorem sizeFor_nonneg
    {size : jlong}
    (hSize : 0 < size)
    (selects : BitVec 8 → Bool)
    (infos : List TagInfo)
    (i : Nat) :
    0 ≤ sizeFor selects size infos i := by
  unfold sizeFor
  split
  · exact Int.le_of_lt hSize
  · exact Int.le_refl 0

theorem addSizes_getElem?
    {infos : List TagInfo}
    (hIncreasing : Increasing infos)
    (selects : BitVec 8 → Bool)
    (size : jlong)
    (result : List jlong)
    (i : Nat) :
    (addSizes selects size infos result)[i]? =
      result[i]?.map (· + sizeFor selects size infos i) := by
  unfold addSizes
  induction infos generalizing result with
  | nil => simp [sizeFor]
  | cons info infos ih =>
      rw [List.foldl_cons, ih hIncreasing.tail]
      by_cases hEq : info.index = i
      · subst hEq
        have hNone : stateAt infos info.index = none :=
          stateAt_eq_none hIncreasing.lt
        simp only [sizeFor, stateAt_cons, hNone, if_true,
          Option.any_none, Option.any_some,
          Bool.false_eq_true, if_false]
        split
        · rw [List.getElem?_modify_eq]
          cases result[info.index]? with
          | none => rfl
          | some x => simp
        · rfl
      · have hSame :
            sizeFor selects size (info :: infos) i =
              sizeFor selects size infos i := by
          unfold sizeFor
          rw [stateAt_cons, if_neg hEq]
        rw [hSame]
        split
        · rw [List.getElem?_modify_ne _ _ hEq]
        · rfl

section Objects

variable {O : Type}

/- The sums over the objects of an iteration. -/
theorem foldl_addSizes_getElem?
    {infos : O → List TagInfo}
    (hIncreasing : ∀ o, Increasing (infos o))
    (selects : BitVec 8 → Bool)
    (size : O → jlong)
    (order : List O)
    (result : List jlong)
    (i : Nat) :
    (order.foldl
        (fun result o =>
          addSizes selects (size o) (infos o) result)
        result)[i]? =
      result[i]?.map
        (· + (order.map
          (fun o =>
            sizeFor selects (size o) (infos o) i)).sum) := by
  induction order generalizing result with
  | nil => simp
  | cons o order ih =>
      rw [List.foldl_cons, ih, addSizes_getElem?
        (hIncreasing o), List.map_cons, List.sum_cons]
      cases result[i]? with
      | none => rfl
      | some x => simp [add_assoc]

/- `IterateThroughHeap` with `visitObject`. -/
def calculateRetainedSizes
    (m : TagAddresses)
    (h : Heap O)
    (tag : O → jlong)
    (tags : TagMemory)
    (order : List O)
    (count : Nat) : Option (List jlong) :=
  order.foldlM
    (fun result o =>
      visitObject m (h.size o) (tag o) tags result)
    (List.replicate count 0)

/- The infos of the tag that an object carries. -/
def carriedInfos
    (m : TagAddresses)
    (tag : O → jlong)
    (tags : TagMemory)
    (o : O) : List TagInfo :=
  (visitedInfos m (tag o) tags).getD []

variable [Fintype O]
variable {m : TagAddresses}
variable {tag : O → jlong}
variable {tags : TagMemory}

theorem Owned.visitedInfos_eq
    (hOwned : Owned m tag tags)
    (o : O) :
    visitedInfos m (tag o) tags =
      some (carriedInfos m tag tags o) := by
  rcases hOwned.exists_visitedInfos o with ⟨infos, hEq⟩
  unfold carriedInfos
  rw [hEq]
  rfl

omit [Fintype O] in
/- A fold whose steps never fail. -/
theorem foldlM_some
    {R : Type}
    {f : R → O → Option R}
    {g : R → O → R}
    (hStep : ∀ r o, f r o = some (g r o))
    (order : List O)
    (r : R) :
    order.foldlM f r = some (order.foldl g r) := by
  induction order generalizing r with
  | nil => rfl
  | cons o order ih =>
      rw [List.foldlM_cons, hStep, List.foldl_cons]
      exact ih (g r o)

theorem Owned.calculateRetainedSizes_eq
    (hOwned : Owned m tag tags)
    (h : Heap O)
    (order : List O)
    (count : Nat) :
    calculateRetainedSizes m h tag tags order count =
      some (order.foldl
        (fun result o =>
          addSizes isRetained (h.size o)
            (carriedInfos m tag tags o) result)
        (List.replicate count 0)) := by
  apply foldlM_some
  intro result o
  unfold visitObject
  rw [hOwned.visitedInfos_eq o]
  rfl

end Objects

end SizesTags

end MemoryAgent
