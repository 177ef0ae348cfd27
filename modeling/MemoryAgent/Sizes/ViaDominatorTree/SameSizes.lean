import MemoryAgent.Sizes.ViaDominatorTree.ByClass
import MemoryAgent.Sizes.ViaDominatorTree.ByObjects

/-
  The sizes that the query for a class returns are those of
  the query for objects, and of the query for one object.

  Main results:
    * `RetainedSizesByClassAction.constructResultObject_eq`
    * `RetainedSizesByClassAction.sizes_agree`
-/

------------------------------------------------------------
-- The Sizes of the Instances
------------------------------------------------------------

namespace MemoryAgent

namespace ViaDominatorTree

namespace RetainedSizesByClassAction

open StdVector DominatorTree
open RetainedSizeAndHeldObjects (retainedSum)

variable {O : Type}
variable {h : Heap O}

/- The roots reach the instances that were collected. -/
theorem Uninterrupted.rooted
    [DecidableEq O]
    {classRef : O}
    {run : Run O}
    (hRun : Uninterrupted h classRef run) :
    ∀ o ∈ run.array.elements, h.RootReachable o := by
  intro o hMem
  apply (collected_invariant hRun.collect_complete).2
  exact ((Heap.objectsWithTags_singleton
    objectOfClassTag_ne_zero).mp hRun.objectsOfClass).2 o
      |>.mp hMem

/- Whatever the limit is, the sizes are those of the objects. -/
theorem constructResultObject_eq
    [Fintype O]
    {sorted : List O}
    {c : Calculation (Option O)}
    (limit : jlong)
    (hRooted : ∀ o ∈ sorted, h.RootReachable o)
    (hSizes :
      ∀ o ∈ sorted,
        c.retainedSize (some o) = some (dominatedSize h o) ∧
          c.shallowSize (some o) = some (h.size o)) :
    ∃ objects,
      (∀ o ∈ objects, o ∈ sorted) ∧
        constructResultObject sorted c limit =
          some ⟨objects, objects.map h.size,
            objects.map (retainedSum h)⟩ := by
  let size := min (toSizeT limit) sorted.length
  have hMem : ∀ o ∈ sorted.take size, o ∈ sorted :=
    fun o hTake => List.mem_of_mem_take hTake
  have hRetained :
      (sorted.take size).mapM
          (fun o => c.retainedSize (some o)) =
        some ((sorted.take size).map (retainedSum h)) := by
    apply mapM_eq_some_map
    intro o hTake
    rw [(hSizes o (hMem o hTake)).1,
      RetainedSizesViaDominatorTreeAction.dominatedSize_eq_retainedSum
        (hRooted o (hMem o hTake))]
  have hShallow :
      (sorted.take size).mapM
          (fun o => c.shallowSize (some o)) =
        some ((sorted.take size).map h.size) :=
    mapM_eq_some_map
      (fun o hTake => (hSizes o (hMem o hTake)).2)
  refine ⟨sorted.take size, hMem, ?_⟩
  unfold constructResultObject
  simp only [size] at hRetained hShallow
  simp only [hRetained, hShallow, Option.bind_eq_bind,
    Option.bind_some, size]

------------------------------------------------------------
-- Agreement
------------------------------------------------------------

variable [DecidableEq O]
variable [Fintype O]

/-
  Every uninterrupted query for the instances of a class has
  a result.  A query for its objects, in whatever order JVMTI
  reports, returns the same sizes, and so does a query for
  one of them.
-/
theorem sizes_agree
    (h : Heap O)
    (classRef : O)
    (objectsLimit : jlong)
    (run : Run O)
    (hRun : Uninterrupted h classRef run) :
    ∃ result,
      executeOperation h classRef objectsLimit run =
          some result ∧
        (∀ (array : InputArray O)
            (first second : List (Report (Option O))),
          array.elements = result.objects →
            RetainedSizesViaDominatorTreeAction.Uninterrupted
                h array first second →
              RetainedSizesViaDominatorTreeAction.executeOperation
                  h array first second =
                some ⟨result.shallowSizes,
                  result.retainedSizes⟩) ∧
        ∀ (i : Nat) (o : O),
          result.objects[i]? = some o →
            ∀ (first second : List (Report O))
                (heldObjects : List O),
              RetainedSizeAndHeldObjects.Uninterrupted h o
                  first second heldObjects →
                let single :=
                  RetainedSizeAndHeldObjects.executeOperation
                    h o first second heldObjects
                result.shallowSizes[i]? =
                    some single.shallowSize ∧
                  result.retainedSizes[i]? =
                    some single.retainedSize := by
  rcases calculate_eq hRun.collect_complete
      hRun.objectsOfClass hRun.traversed with
    ⟨c, hCalculate, hSizes⟩
  have hSorted :
      ∀ o ∈ run.sorted, o ∈ run.array.elements :=
    fun o hMem => hRun.sorted_perm.mem_iff.mp hMem
  have hRooted :
      ∀ o ∈ run.sorted, h.RootReachable o :=
    fun o hMem => hRun.rooted o (hSorted o hMem)
  rcases constructResultObject_eq objectsLimit hRooted
      (fun o hMem => hSizes o (hSorted o hMem)) with
    ⟨objects, hMem, hResult⟩
  refine ⟨⟨objects, objects.map h.size,
    objects.map (retainedSum h)⟩, ?_, ?_, ?_⟩
  · unfold executeOperation
    rw [hCalculate]
    exact hResult
  · intro array first second hElements hObjects
    have hElements : array.elements = objects := hElements
    rcases RetainedSizesViaDominatorTreeAction.agrees_of_rooted
        hObjects (fun o hO =>
          hRooted o (hMem o (hElements ▸ hO))) with
      ⟨⟨shallowSizes, retainedSizes⟩, hOther, hAgrees⟩
    have hShallow := hAgrees.shallow
    have hRetained := hAgrees.retained
    rw [hElements] at hShallow hRetained
    dsimp only at hShallow hRetained
    rw [hOther, hShallow, hRetained]
  · intro i o hGet first second heldObjects hSingle
    have hGet : objects[i]? = some o := hGet
    have hSize :=
      RetainedSizeAndHeldObjects.estimateObjectSize_user
        hSingle.first_complete hSingle.second_complete
    constructor
    · change (objects.map h.size)[i]? = _
      rw [List.getElem?_map, hGet]
      rfl
    · change (objects.map (retainedSum h))[i]? = _
      rw [List.getElem?_map, hGet]
      exact congrArg some hSize.symm

/- The first instance holds the other one. -/
theorem sizes_agree_twoInstances :
    ∃ run result,
      Uninterrupted twoInstances 0 run ∧
        executeOperation twoInstances 0 1 run =
            some result ∧
          ∀ (array : InputArray (Fin 4))
              (first second :
                List (Report (Option (Fin 4)))),
            array.elements = result.objects →
              RetainedSizesViaDominatorTreeAction.Uninterrupted
                  twoInstances array first second →
                RetainedSizesViaDominatorTreeAction.executeOperation
                    twoInstances array first second =
                  some ⟨result.shallowSizes,
                    result.retainedSizes⟩ := by
  rcases exists_uninterrupted twoInstances 0 with
    ⟨run, hRun⟩
  rcases sizes_agree twoInstances 0 1 run hRun with
    ⟨result, hResult, hArrays, _⟩
  exact ⟨run, result, hRun, hResult, hArrays⟩

end RetainedSizesByClassAction

end ViaDominatorTree

end MemoryAgent
