import Mathlib.Data.Fintype.Basic
import MemoryAgent.Sizes.ViaDominatorTree.RetainedSizes

/-
  The instances of a class with the largest retained sizes.

  Key definitions include:
    * `RetainedSizesByClassAction.CollectInvariant`
    * `RetainedSizesByClassAction.LargestInstances`

  Main results:
    * `RetainedSizesByClassAction.tagBefore_cases`
    * `RetainedSizesByClassAction.largest_instances`
-/

------------------------------------------------------------
-- Collecting the Instances
------------------------------------------------------------

namespace MemoryAgent

namespace ViaDominatorTree

namespace RetainedSizesByClassAction

open StdVector DominatorTree

variable {O : Type}
variable [DecidableEq O]

/-
  The state while instances are collected: only objects that
  the roots reach are tagged as instances.
-/
structure CollectInvariant
    (h : Heap O)
    (classRef : O)
    (state :
      Worklist.State O (Report O) (Tagged O jlong Unit)) :
    Prop where
  tags :
    ∀ o, o ≠ classRef →
      state.data.tag o = 0 ∨
        state.data.tag o = objectOfClassTag
  found :
    ∀ o, state.data.tag o = objectOfClassTag →
      h.RootReachable o
  pending :
    ∀ r ∈ state.pending, r.kind.isJni = false →
      h.RootReachable r.referee

section Collect

variable {h : Heap O}
variable {classRef : O}

omit [DecidableEq O] in
theorem rootReachable_of_reportsOf
    {o : O}
    (hRoot : h.RootReachable o)
    {r : Report O}
    (hMem : r ∈ h.reportsOf o) :
    h.RootReachable r.referee := by
  have hHeld := ((h.mem_reportsOf_iff o r).mp hMem).2
  exact hRoot.reachable
    (Relation.ReflTransGen.single ⟨r.reference, hHeld, rfl⟩)

omit [DecidableEq O] in
/- An answer of the callback, by the kind of the reference. -/
theorem collectObjects_cases
    (args : ReferenceArguments jlong) :
    (args.refKind.isJni = true ∧
        collectObjects args () = (args.tag, (), .skip)) ∨
      (args.refKind.isJni = false ∧
        ∃ tag, collectObjects args () = (tag, (), .visit) ∧
          (tag = args.tag ∨ tag = objectOfClassTag)) := by
  unfold collectObjects
  by_cases hKind : args.refKind.isJni = true
  · simp [hKind]
  · by_cases hClass : args.classTag = classTag
    · simp [hKind, hClass]
    · simp [hKind, hClass]

theorem collectObjects_continues
    (args : ReferenceArguments jlong)
    (user : Unit) :
    (collectObjects args user).2.2 ≠ .stop := by
  rcases collectObjects_cases args with
    ⟨_, hAnswer⟩ | ⟨_, tag, hAnswer, _⟩
  · rw [hAnswer]
    exact Worklist.Signal.noConfusion
  · rw [hAnswer]
    exact Worklist.Signal.noConfusion

theorem CollectInvariant.report
    {state :
      Worklist.State O (Report O) (Tagged O jlong Unit)}
    {r : Report O}
    (hInvariant : CollectInvariant h classRef state)
    (hPending : r ∈ state.pending) :
    CollectInvariant h classRef
      (Worklist.report h.graph (h.invoke collectObjects) r
        state) := by
  have hStop :
      (h.invoke collectObjects r state.data).2 ≠ .stop :=
    collectObjects_continues _ _
  have hErase :
      ∀ other ∈ state.pending.erase r,
        other.kind.isJni = false →
          h.RootReachable other.referee :=
    fun other hMem =>
      hInvariant.pending other (List.mem_of_mem_erase hMem)
  rcases collectObjects_cases (h.arguments r state.data) with
    ⟨hKind, hAnswer⟩ | ⟨hKind, tag, hAnswer, hTag⟩
  · have hData :
        (h.invoke collectObjects r state.data).1.tag =
          state.data.tag := by
      rw [Heap.invoke_tag, hAnswer]
      exact Function.update_eq_self _ _
    refine ⟨?_, ?_, ?_⟩
    · rw [Worklist.report_data, hData]
      exact hInvariant.tags
    · rw [Worklist.report_data, hData]
      exact hInvariant.found
    · have hSignal :
          (h.invoke collectObjects r state.data).2 =
            .skip := by
        rw [Heap.invoke_signal, hAnswer]
      rcases Worklist.report_cases (g := h.graph) hStop with
        ⟨_, hRest, _⟩ | ⟨hVisit, _⟩
      · rw [hRest]
        exact hErase
      · rw [hSignal] at hVisit
        cases hVisit
  · have hRoot := hInvariant.pending r hPending hKind
    have hData :
        (h.invoke collectObjects r state.data).1.tag =
          Function.update state.data.tag r.referee tag := by
      rw [Heap.invoke_tag, hAnswer]
    refine ⟨?_, ?_, ?_⟩
    · intro o hNe
      rw [Worklist.report_data, hData]
      by_cases hEq : o = r.referee
      · subst hEq
        rw [Function.update_self]
        rcases hTag with hSame | hObject
        · rw [hSame]
          exact hInvariant.tags r.referee hNe
        · exact Or.inr hObject
      · rw [Function.update_of_ne hEq]
        exact hInvariant.tags o hNe
    · intro o hFound
      rw [Worklist.report_data, hData] at hFound
      by_cases hEq : o = r.referee
      · rw [hEq]
        exact hRoot
      · rw [Function.update_of_ne hEq] at hFound
        exact hInvariant.found o hFound
    · rcases Worklist.report_cases (g := h.graph) hStop with
        ⟨_, hRest, _⟩ | ⟨_, _, hRest, _⟩
      · rw [hRest]
        exact hErase
      · rw [hRest]
        intro other hMem hOther
        rcases List.mem_append.mp hMem with hOld | hNew
        · exact hErase other hOld hOther
        · exact rootReachable_of_reportsOf hRoot hNew

theorem CollectInvariant.init :
    CollectInvariant h classRef
      (h.traversal none (tagClass classRef)) := by
  have hTag :
      ∀ o, o ≠ classRef →
        (tagClass classRef).tag o = 0 :=
    fun o hNe => Tagged.setTag_tag_of_ne _ _ hNe
  refine ⟨fun o hNe => Or.inl (hTag o hNe), ?_, ?_⟩
  · intro o hFound
    have hObject :
        (tagClass classRef).tag o = objectOfClassTag := hFound
    by_cases hEq : o = classRef
    · rw [hEq, tagClass, Tagged.setTag_tag_self] at hObject
      exact absurd hObject (by decide)
    · rw [hTag o hEq] at hObject
      exact absurd hObject (by decide)
  · intro r hMem hKind
    have hRoot := ((h.mem_rootReports_iff r).mp hMem).2
    exact Heap.ReachedAvoiding.root hRoot hKind id

/- What the collection leaves behind. -/
theorem collected_invariant
    {collect : List (Report O)}
    (hCollect :
      h.FollowReferences none collectObjects
        (tagClass classRef) collect) :
    (∀ o, o ≠ classRef →
      (collected h classRef collect).tag o = 0 ∨
        (collected h classRef collect).tag o =
          objectOfClassTag) ∧
      ∀ o,
        (collected h classRef collect).tag o =
            objectOfClassTag →
          h.RootReachable o := by
  have hFinal :=
    Worklist.replay_invariant
      (CollectInvariant h classRef)
      (fun _ _ hInvariant hPending =>
        hInvariant.report hPending)
      hCollect.1.1 CollectInvariant.init
  exact ⟨hFinal.tags, hFinal.found⟩

end Collect

------------------------------------------------------------
-- Numbering the Instances
------------------------------------------------------------

section Run

variable {h : Heap O}
variable {classRef : O}
variable {run : Run O}

theorem objectOfClassTag_ne_zero :
    objectOfClassTag ≠ 0 := by
  decide

/- Only instances are tagged when they are numbered. -/
theorem tagBefore_cases
    {collect : List (Report O)}
    {instances : List O}
    (hCollect :
      h.FollowReferences none collectObjects
        (tagClass classRef) collect)
    (hInstances :
      Heap.ObjectsWithTags (collected h classRef collect)
        [objectOfClassTag] instances) :
    (∀ o ∈ instances.map some,
      tagBefore h classRef collect o = 0 ∨
        tagBefore h classRef collect o = objectOfClassTag) ∧
      ∀ o, o ∉ instances.map some →
        tagBefore h classRef collect o = 0 := by
  have hTags := (collected_invariant hCollect).1
  have hTagged :=
    ((Heap.objectsWithTags_singleton
      objectOfClassTag_ne_zero).mp hInstances).2
  have hCases :
      ∀ o,
        tagBefore h classRef collect (some o) = 0 ∨
          (tagBefore h classRef collect (some o) =
              objectOfClassTag ∧ o ∈ instances) := by
    intro o
    change ((collected h classRef collect).setTag classRef
      0).tag o = 0 ∨ ((collected h classRef collect).setTag
        classRef 0).tag o = objectOfClassTag ∧ _
    by_cases hEq : o = classRef
    · rw [hEq]
      exact Or.inl (Tagged.setTag_tag_self _ _ _)
    · rw [Tagged.setTag_tag_of_ne _ _ hEq]
      rcases hTags o hEq with hZero | hFound
      · exact Or.inl hZero
      · exact Or.inr ⟨hFound, (hTagged o).mpr hFound⟩
  constructor
  · intro o hMem
    rcases List.mem_map.mp hMem with ⟨p, _, hEq⟩
    rw [← hEq]
    exact (hCases p).imp_right And.left
  · intro o hNot
    cases o with
    | none => rfl
    | some o =>
        apply (hCases o).resolve_right
        rintro ⟨_, hMem⟩
        exact hNot (List.mem_map.mpr ⟨o, hMem, rfl⟩)

variable [Fintype O]

/- The calculation has the sizes of the instances. -/
theorem calculate_eq
    (hCollect :
      h.FollowReferences none collectObjects
        (tagClass classRef) run.collect)
    (hInstances :
      Heap.ObjectsWithTags
        (collected h classRef run.collect)
        [objectOfClassTag] run.array.elements)
    (hTraversed :
      Traversed (run.array.heap h) none
        (run.array.elements.map some)
        (tagBefore h classRef run.collect)
        run.first run.second) :
    ∃ c,
      calculate h classRef run = some c ∧
        ∀ o ∈ run.array.elements,
          c.retainedSize (some o) =
              some (dominatedSize h o) ∧
            c.shallowSize (some o) = some (h.size o) := by
  rcases tagBefore_cases hCollect hInstances with
    ⟨hTag, hOthers⟩
  have hRooted :
      ∀ s ∈ run.array.elements.map some,
        Rooted (run.array.heap h) none s := by
    intro s hMem
    rcases List.mem_map.mp hMem with ⟨o, hElement, hEq⟩
    rw [← hEq, rooted_some_iff]
    apply (collected_invariant hCollect).2
    exact ((Heap.objectsWithTags_singleton
      objectOfClassTag_ne_zero).mp hInstances).2 o |>.mp
        hElement
  rcases calculateRetainedSizes_spec
      (isInputArray h run.array) hTag hOthers hTraversed
      hRooted with ⟨c, hCalculate, hSizes⟩
  refine ⟨c, hCalculate, ?_⟩
  intro o hMem
  rcases hSizes (some o) (List.mem_map.mpr ⟨o, hMem, rfl⟩)
    with ⟨hRetained, hShallow⟩
  rw [sum_dominatedObjects] at hRetained
  exact ⟨hRetained, hShallow⟩

/- The action has an uninterrupted run on every heap. -/
theorem exists_uninterrupted
    (h : Heap O)
    (classRef : O) :
    ∃ run, Uninterrupted h classRef run := by
  rcases h.exists_followReferences none
      collectObjects_continues (tagClass classRef) with
    ⟨collect, hCollect⟩
  let s := collected h classRef collect
  let instances : List O :=
    (Finset.univ.filter
      (fun o => s.tag o = objectOfClassTag)).toList
  have hInstances :
      Heap.ObjectsWithTags s [objectOfClassTag]
        instances := by
    apply (Heap.objectsWithTags_singleton
      objectOfClassTag_ne_zero).mpr
    refine ⟨Finset.nodup_toList _, ?_⟩
    intro o
    simp [instances]
  let array : InputArray O :=
    { elements := instances
      size := 1
      classOf := classRef
      roots := []
      size_pos := Int.one_pos
      roots_isRoot := fun _ hMem =>
        absurd hMem List.not_mem_nil
      roots_ignored := fun _ hMem =>
        absurd hMem List.not_mem_nil }
  rcases tagBefore_cases hCollect hInstances with
    ⟨hTag, hOthers⟩
  rcases exists_traversed (isInputArray h array) hTag hOthers
    with ⟨first, second, hTraversed⟩
  let sizeLe : O → O → Bool :=
    fun a b => decide (dominatedSize h b ≤ dominatedSize h a)
  let run : Run O :=
    ⟨collect, array, first, second,
      instances.mergeSort sizeLe⟩
  have hPerm : run.sorted.Perm instances :=
    List.mergeSort_perm _ _
  refine ⟨run, hCollect, hInstances, hTraversed, hPerm, ?_⟩
  intro c hCalculate
  have hSorted :
      run.sorted.Pairwise (fun a b => sizeLe a b = true) := by
    apply List.pairwise_mergeSort
    · intro a b d hAB hBD
      exact decide_eq_true
        ((of_decide_eq_true hBD).trans
          (of_decide_eq_true hAB))
    · intro a b
      have hTotal :=
        le_total (dominatedSize h a) (dominatedSize h b)
      simpa [sizeLe, or_comm] using hTotal
  have hSizes :
      ∀ o ∈ run.sorted,
        c.retainedSize (some o) =
          some (dominatedSize h o) := by
    have hRunTraversed :
        Traversed (run.array.heap h) none
          (run.array.elements.map some)
          (tagBefore h classRef run.collect)
          run.first run.second :=
      hTraversed
    rcases calculate_eq hCollect hInstances hRunTraversed
      with ⟨d, hOther, hSizes⟩
    have hSame : d = c :=
      Option.some.inj (hOther.symm.trans hCalculate)
    intro o hMem
    rw [← hSame]
    exact (hSizes o (hPerm.mem_iff.mp hMem)).1
  refine hSorted.imp_of_mem ?_
  intro a b hA hB hLe
  have hLeSize : dominatedSize h b ≤ dominatedSize h a :=
    of_decide_eq_true hLe
  simp [greater, hSizes a hA, hSizes b hB, hLeSize]

end Run

------------------------------------------------------------
-- The Result
------------------------------------------------------------

/-
  A result with as many instances as the limit admits, the
  largest ones first, and with their sizes.
-/
structure LargestInstances
    [Fintype O]
    (h : Heap O)
    (instances : List O)
    (limit : jlong)
    (result : Result O) : Prop where
  length :
    (result.objects.length : jlong) =
      min limit instances.length
  nodup : result.objects.Nodup
  subset : ∀ o ∈ result.objects, o ∈ instances
  sorted :
    result.objects.Pairwise
      (fun a b => dominatedSize h b ≤ dominatedSize h a)
  omitted :
    ∀ o ∈ instances, o ∉ result.objects →
      ∀ p ∈ result.objects,
        dominatedSize h o ≤ dominatedSize h p
  shallow :
    result.shallowSizes = result.objects.map h.size
  retained :
    result.retainedSizes =
      result.objects.map (dominatedSize h)

section Take

variable {α : Type}
variable {xs : List α}
variable {f : α → jlong}

/- A prefix of a sorted list omits none of the largest. -/
theorem le_of_not_mem_take
    (hSorted : xs.Pairwise (fun a b => f b ≤ f a))
    {k : Nat}
    {a b : α}
    (hMem : a ∈ xs)
    (hNot : a ∉ xs.take k)
    (hTake : b ∈ xs.take k) :
    f a ≤ f b := by
  have hDrop : a ∈ xs.drop k := by
    rw [← List.take_append_drop k xs] at hMem
    exact (List.mem_append.mp hMem).resolve_left hNot
  rw [← List.take_append_drop k xs] at hSorted
  exact (List.pairwise_append.mp hSorted).2.2 b hTake a
    hDrop

end Take

omit [DecidableEq O] in
theorem constructResultObject_spec
    [Fintype O]
    {h : Heap O}
    {instances sorted : List O}
    {limit : jlong}
    {c : Calculation (Option O)}
    (hLimit : 0 ≤ limit)
    (hNodup : instances.Nodup)
    (hPerm : sorted.Perm instances)
    (hSorted :
      sorted.Pairwise
        (fun a b => dominatedSize h b ≤ dominatedSize h a))
    (hSizes :
      ∀ o ∈ instances,
        c.retainedSize (some o) = some (dominatedSize h o) ∧
          c.shallowSize (some o) = some (h.size o)) :
    ∃ result,
      constructResultObject sorted c limit = some result ∧
        LargestInstances h instances limit result := by
  let size := min (toSizeT limit) sorted.length
  have hMem :
      ∀ o ∈ sorted.take size, o ∈ instances :=
    fun o hTake => hPerm.mem_iff.mp (List.mem_of_mem_take hTake)
  have hRetained :
      (sorted.take size).mapM
          (fun o => c.retainedSize (some o)) =
        some ((sorted.take size).map (dominatedSize h)) :=
    mapM_eq_some_map
      (fun o hTake => (hSizes o (hMem o hTake)).1)
  have hShallow :
      (sorted.take size).mapM
          (fun o => c.shallowSize (some o)) =
        some ((sorted.take size).map h.size) :=
    mapM_eq_some_map
      (fun o hTake => (hSizes o (hMem o hTake)).2)
  refine ⟨⟨sorted.take size, (sorted.take size).map h.size,
    (sorted.take size).map (dominatedSize h)⟩, ?_, ?_⟩
  · unfold constructResultObject
    simp only [size] at hRetained hShallow
    simp only [hRetained, hShallow, Option.bind_eq_bind,
      Option.bind_some, size]
  · refine ⟨?_, ?_, hMem, ?_, ?_, rfl, rfl⟩
    · have hToSizeT : (toSizeT limit : jlong) = limit := by
        rw [toSizeT, if_neg (not_lt.mpr hLimit)]
        exact Int.toNat_of_nonneg hLimit
      have hLength : sorted.length = instances.length :=
        hPerm.length_eq
      have hTake : (sorted.take size).length = size := by
        simp [size]
      have hCast :
          (size : Int) =
            min (toSizeT limit : Int) (sorted.length : Int)
          := by
        simp only [size]
        omega
      change ((sorted.take size).length : jlong) = _
      rw [hTake, hCast, hToSizeT, hLength]
    · exact (hPerm.nodup_iff.mpr hNodup).sublist
        (List.take_sublist _ _)
    · exact hSorted.sublist (List.take_sublist _ _)
    · intro o hInstance hNot p hTake
      exact le_of_not_mem_take hSorted
        (hPerm.mem_iff.mpr hInstance) hNot hTake

/-
  Every uninterrupted run returns the instances with the
  largest retained sizes.  The retained size of an instance
  is the size of what the roots reach only through it.
-/
theorem largest_instances
    [Fintype O]
    (h : Heap O)
    (classRef : O)
    (objectsLimit : jlong)
    (hLimit : 0 ≤ objectsLimit) :
    (∃ run, Uninterrupted h classRef run) ∧
      ∀ run, Uninterrupted h classRef run →
        (∀ o ∈ run.array.elements, h.RootReachable o) ∧
        ∃ result,
          executeOperation h classRef objectsLimit run =
              some result ∧
            LargestInstances h run.array.elements
              objectsLimit result := by
  refine ⟨exists_uninterrupted h classRef, ?_⟩
  intro run hRun
  rcases calculate_eq hRun.collect_complete
      hRun.objectsOfClass hRun.traversed with
    ⟨c, hCalculate, hSizes⟩
  have hRoot :
      ∀ o ∈ run.array.elements, h.RootReachable o := by
    intro o hMem
    apply (collected_invariant hRun.collect_complete).2
    exact ((Heap.objectsWithTags_singleton
      objectOfClassTag_ne_zero).mp
        hRun.objectsOfClass).2 o |>.mp hMem
  have hSorted :
      run.sorted.Pairwise
        (fun a b => dominatedSize h b ≤ dominatedSize h a)
      := by
    refine (hRun.sorted_pairwise c hCalculate).imp_of_mem ?_
    intro a b hA hB hGreater
    have hSizeA :=
      (hSizes a (hRun.sorted_perm.mem_iff.mp hA)).1
    have hSizeB :=
      (hSizes b (hRun.sorted_perm.mem_iff.mp hB)).1
    simpa [greater, hSizeA, hSizeB] using hGreater
  rcases constructResultObject_spec hLimit
      hRun.objectsOfClass.1 hRun.sorted_perm hSorted hSizes
    with ⟨result, hResult, hLargest⟩
  refine ⟨hRoot, result, ?_, hLargest⟩
  unfold executeOperation
  rw [hCalculate]
  exact hResult

/- Two instances 1 and 2 of class 0, one holding the other. -/
def twoInstances : Heap (Fin 4) where
  roots :=
    [⟨.systemClass, .none, 0⟩, ⟨.thread, .none, 1⟩]
  references := fun o =>
    match o with
    | 1 => [⟨.field, .index 0, 2⟩]
    | 2 => [⟨.field, .index 0, 3⟩]
    | _ => []
  size := fun _ => 16
  classOf := fun o =>
    match o with
    | 1 => 0
    | 2 => 0
    | _ => 3
  roots_isRoot := by decide
  references_isHeld := by decide
  size_pos := fun _ => sixteen_pos

theorem largest_instances_twoInstances :
    (∃ run, Uninterrupted twoInstances 0 run) ∧
      ∀ run, Uninterrupted twoInstances 0 run →
        (∀ o ∈ run.array.elements,
          twoInstances.RootReachable o) ∧
        ∃ result,
          executeOperation twoInstances 0 1 run =
              some result ∧
            LargestInstances twoInstances run.array.elements
              1 result :=
  largest_instances twoInstances 0 1 (by decide)

end RetainedSizesByClassAction

end ViaDominatorTree

end MemoryAgent
