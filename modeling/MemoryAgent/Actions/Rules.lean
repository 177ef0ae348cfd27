import MemoryAgent.Actions.Program

/-
  Properties of programs that hold of all operations because
  they hold of the calls and go through the ladders.

  Key definitions include:
    * `Actions.Closed`

  Main results:
    * `Actions.Closed.executeOperation`
-/

------------------------------------------------------------
-- Closed Properties
------------------------------------------------------------

namespace MemoryAgent

namespace Actions

open Calls

/-
  The property holds of single calls and checks, and of what
  is composed of programs that have it.
-/
structure Closed
    (P : ∀ {α : Type}, Program α → Prop) : Prop where
  ret : ∀ {α : Type} (a : α), P (.ret a : Program α)
  bind :
    ∀ {α β : Type} {p : Program α} {f : α → Program β},
      P p → (∀ a, P (f a)) → P (p >>= f)
  jvmti : ∀ c, isUnchecked c = false → P (jvmti c)
  getIndex :
    ∀ place, isUnchecked (.GetTag place) = true →
      P (RetainedSizesAction.getIndex place)
  loaded :
    ∀ {p : Program Unit}, P p →
      P (do
        let err ← Actions.jvmti (.GetLoadedClasses none)
        if isOk err then p else .undefined (pure ()))
  shouldStop : P shouldStopExecution
  unlessStopped :
    ∀ {α : Type} {p q : Program α}, P p → P q →
      P (do if ← shouldStopExecution then p else q)
  FollowReferences :
    ∀ callback, P (FollowReferences callback)
  IterateThroughHeap :
    ∀ callback, P (IterateThroughHeap callback)
  walkHeapFromObjects :
    ∀ walks, P (walkHeapFromObjects walks)

section Parts

variable {P : ∀ {α : Type}, Program α → Prop}
variable (hP : Closed P)
variable {p q : Program jvmtiError}
include hP

theorem Closed.andThen
    (hFirst : P p)
    (hNext : P q) :
    P (andThen p q) := by
  refine hP.bind hFirst (fun err => ?_)
  split
  · exact hNext
  · exact hP.ret err

theorem Closed.forEach
    {β : Type}
    {body : β → Program jvmtiError}
    (xs : List β)
    (hBody : ∀ x, P (body x)) :
    P (forEach body xs) := by
  induction xs with
  | nil => exact hP.ret 0
  | cons x xs ih => exact hP.andThen (hBody x) ih

theorem Closed.followReferences
    (callback : Traversal) :
    P (followReferences callback) :=
  hP.bind (hP.FollowReferences callback)
    (fun r => hP.ret r.1)

theorem Closed.iterateThroughHeap
    (callback : Iteration) :
    P (iterateThroughHeap callback) :=
  hP.bind (hP.IterateThroughHeap callback)
    (fun r => hP.ret r.1)

theorem Closed.andThenUnlessStopped
    (hFirst : P p)
    (hNext : P q) :
    P (andThenUnlessStopped p q) :=
  hP.andThen hFirst (hP.unlessStopped (hP.ret _) hNext)

theorem Closed.getObjectsByTags :
    P getObjectsByTags :=
  hP.andThen (hP.jvmti _ rfl)
    (hP.andThen (hP.jvmti _ rfl) (hP.jvmti _ rfl))

theorem Closed.setNewTag
    (place : Place)
    (fresh : Bool) :
    P (setNewTag place fresh) := by
  cases fresh with
  | false => exact hP.ret _
  | true => exact hP.jvmti _ rfl

end Parts

------------------------------------------------------------
-- Operations
------------------------------------------------------------

section Operations

variable {P : ∀ {α : Type}, Program α → Prop}
variable (hP : Closed P)
include hP

namespace RetainedSizeAndHeldObjectsAction

theorem closed_secondTraversal :
    P traverseHeapFromStartObjectAndCountRetainedSize := by
  refine hP.bind (hP.FollowReferences _) ?_
  rintro ⟨err, done⟩
  dsimp only
  split
  · refine hP.unlessStopped (hP.ret _) ?_
    refine hP.bind (hP.jvmti _ rfl) (fun err => ?_)
    split
    · refine hP.bind (hP.jvmti _ rfl) (fun err => ?_)
      split
      · exact hP.ret _
      · exact hP.ret _
    · exact hP.ret _
  · exact hP.ret _

theorem closed_estimateObjectSize :
    P estimateObjectSize := by
  have hFirst : P traverseHeapForTheFirstTime :=
    hP.andThenUnlessStopped (hP.jvmti _ rfl)
      (hP.followReferences _)
  refine hP.bind hFirst (fun err => ?_)
  split
  · refine hP.unlessStopped (hP.ret _) ?_
    refine hP.bind (closed_secondTraversal hP) ?_
    rintro ⟨err, retainedSize⟩
    dsimp only
    split
    · exact hP.unlessStopped (hP.ret _)
        (hP.bind hP.getObjectsByTags (fun _ => hP.ret _))
    · exact hP.ret _
  · exact hP.ret _

theorem closed_executeOperation :
    P executeOperation :=
  hP.bind (closed_estimateObjectSize hP) (fun _ =>
    hP.bind (hP.jvmti _ rfl) (fun _ => hP.ret _))

end RetainedSizeAndHeldObjectsAction

namespace RetainedSizeByObjectsAction

theorem closed_goOn :
    P goOn :=
  hP.unlessStopped (hP.ret _) (hP.ret _)

/- None of these places is read as an index. -/
theorem closed_createTagForObject
    (place : Place)
    (fresh : Bool)
    (hPlace : isUnchecked (.GetTag place) = false) :
    P (createTagForObject place fresh) :=
  hP.andThen (hP.jvmti _ hPlace) (hP.setNewTag _ _)

theorem closed_retagStartObjects
    (objects : List ArgumentObject) :
    P (retagStartObjects objects) := by
  refine hP.andThen ?_ ?_
  · exact hP.forEach _ (fun _ =>
      hP.andThen (hP.jvmti _ rfl) (closed_goOn hP))
  · exact hP.forEach _ (fun _ =>
      hP.andThen (closed_createTagForObject hP _ _ rfl)
        (closed_goOn hP))

theorem closed_tagHeap
    (objects : List ArgumentObject)
    (walks : List Bool) :
    P (tagHeap objects walks) :=
  hP.andThenUnlessStopped (hP.followReferences _)
    (hP.andThenUnlessStopped hP.getObjectsByTags
      (hP.andThenUnlessStopped
        (closed_retagStartObjects hP objects)
        (hP.andThenUnlessStopped (hP.followReferences _)
          (hP.walkHeapFromObjects walks))))

theorem closed_executeOperation
    (objects : List ArgumentObject)
    (walks : List Bool) :
    P (executeOperation objects walks) := by
  have hTags : P (createTagsForObjects objects) :=
    hP.forEach _ (fun _ =>
      hP.andThen (closed_createTagForObject hP _ _ rfl)
        (closed_goOn hP))
  refine hP.bind
    (hP.andThen hTags (closed_tagHeap hP objects walks))
    (fun err => ?_)
  split
  · refine hP.bind (hP.IterateThroughHeap _) ?_
    rintro ⟨err, done⟩
    dsimp only
    split
    · exact hP.ret _
    · exact hP.ret _
  · exact hP.ret _

end RetainedSizeByObjectsAction

theorem closed_tagLoadedClasses
    (i : Nat)
    (loaded : List (LoadedClass × Nat)) :
    P (tagLoadedClasses i loaded) := by
  induction loaded with
  | nil => exact hP.ret _
  | cons p rest ih =>
      rcases p with ⟨loaded, j⟩
      unfold tagLoadedClasses
      split
      swap
      · exact ih
      refine hP.bind (hP.jvmti _ rfl) (fun err => ?_)
      split
      swap
      · exact hP.ret _
      refine hP.bind (hP.jvmti _ rfl) (fun signature => ?_)
      split
      · refine hP.bind (hP.setNewTag _ _) (fun err => ?_)
        split
        · exact ih
        · exact hP.ret _
      · exact hP.bind ih (fun r => hP.ret _)

theorem closed_tagClassAndItsInheritors
    (i : Nat)
    (loaded : List LoadedClass) :
    P (tagClassAndItsInheritors i loaded) := by
  refine hP.bind (hP.jvmti _ rfl) (fun err => ?_)
  split
  · exact closed_tagLoadedClasses hP i _
  · exact hP.ret _

namespace ShallowSizeByClassesAction

theorem closed_tagClasses
    (classes : List (List LoadedClass × Nat)) :
    P (tagClasses classes) := by
  induction classes with
  | nil => exact hP.ret _
  | cons p rest ih =>
      exact hP.bind
        (closed_tagClassAndItsInheritors hP p.2 p.1)
        (fun _ => hP.bind ih (fun _ => hP.ret _))

theorem closed_executeOperation
    (classes : List (List LoadedClass)) :
    P (executeOperation classes) :=
  hP.bind (closed_tagClasses hP _) (fun _ =>
    hP.unlessStopped (hP.ret _)
      (hP.bind (hP.IterateThroughHeap _)
        (fun _ => hP.ret _)))

end ShallowSizeByClassesAction

namespace RetainedSizeAction

theorem closed_createTagsForClasses
    (classes : List (List LoadedClass × Nat)) :
    P (createTagsForClasses classes) := by
  induction classes with
  | nil => exact hP.ret _
  | cons p rest ih =>
      refine hP.bind
        (closed_tagClassAndItsInheritors hP p.2 p.1) ?_
      rintro ⟨err, tagged⟩
      dsimp only
      split
      · exact hP.bind ih (fun _ => hP.ret _)
      · exact hP.ret _

theorem closed_tagHeap
    (walks : List Bool) :
    P (tagHeap walks) :=
  hP.andThenUnlessStopped (hP.followReferences _)
    (hP.andThenUnlessStopped hP.getObjectsByTags
      (hP.andThenUnlessStopped (hP.iterateThroughHeap _)
        (hP.andThenUnlessStopped (hP.followReferences _)
          (hP.walkHeapFromObjects walks))))

theorem closed_getSizes
    (callback : Iteration)
    (vectors : Nat)
    (classes : List (List LoadedClass))
    (walks : List Bool) :
    P (getSizes callback vectors classes walks) := by
  refine hP.bind (closed_createTagsForClasses hP _) ?_
  rintro ⟨err, tagged⟩
  dsimp only
  split
  swap
  · exact hP.ret _
  refine hP.bind
    (hP.andThenUnlessStopped (hP.iterateThroughHeap _)
      (closed_tagHeap hP walks)) (fun err => ?_)
  split
  · exact hP.unlessStopped (hP.ret _)
      (hP.bind (hP.IterateThroughHeap _)
        (fun _ => hP.ret _))
  · exact hP.ret _

end RetainedSizeAction

theorem closed_getRetainedSizeByClasses
    (classes : List (List LoadedClass))
    (walks : List Bool) :
    P (RetainedSizeByClassesAction.executeOperation classes
      walks) := by
  refine hP.bind
    (RetainedSizeAction.closed_getSizes hP _ _ _ _) ?_
  rintro ⟨err, result⟩
  dsimp only
  split
  · exact hP.ret _
  · exact hP.ret _

namespace RetainedSizesAction

theorem closed_calculateRetainedSizes
    (fresh : List Bool) :
    P (calculateRetainedSizes fresh) := by
  have hObjects : P (initAndSetTagsForObjects fresh) := by
    refine hP.forEach _ (fun object => ?_)
    refine hP.andThen (hP.jvmti _ rfl) ?_
    split
    · exact hP.andThen (hP.jvmti _ rfl) (hP.jvmti _ rfl)
    · exact hP.ret _
  have hFirst :
      P (Calls.andThen (tagsForTraversals fresh)
        (Actions.followReferences .firstTraversal)) :=
    hP.andThen (hP.andThen hObjects (hP.jvmti _ rfl))
      (hP.followReferences _)
  refine hP.bind hFirst (fun err => ?_)
  split
  swap
  · exact hP.ret _
  refine hP.unlessStopped (hP.ret _) ?_
  refine hP.bind (hP.FollowReferences _) ?_
  rintro ⟨err, done⟩
  dsimp only
  split
  · exact hP.unlessStopped (hP.ret _) (hP.ret _)
  · exact hP.ret _

theorem closed_readSizes
    (retainedSize : Number)
    (indices : List Nat) :
    P (readSizes retainedSize indices) := by
  induction indices with
  | nil => exact hP.ret _
  | cons i rest ih =>
      exact hP.bind (hP.getIndex _ rfl)
        (fun _ => hP.bind ih (fun _ => hP.ret _))

end RetainedSizesAction

open RetainedSizesAction

theorem closed_getShallowAndRetainedSizesByObjects
    (fresh : List Bool) :
    P (RetainedSizesViaDominatorTreeAction.executeOperation
      fresh) := by
  refine hP.bind (closed_calculateRetainedSizes hP fresh) ?_
  rintro ⟨err, retainedSize⟩
  dsimp only
  split
  · exact hP.unlessStopped (hP.ret _)
      (closed_readSizes hP _ _)
  · exact hP.ret _

namespace RetainedSizesByClassViaDominatorTreeAction

theorem closed_sort
    (comparisons : List Nat) :
    P (sort comparisons) := by
  induction comparisons with
  | nil => exact hP.ret _
  | cons k rest ih =>
      exact hP.bind (hP.getIndex _ rfl)
        (fun _ => hP.bind (hP.getIndex _ rfl) (fun _ => ih))

theorem closed_executeOperation
    (fresh : List Bool)
    (comparisons size : Nat) :
    P (executeOperation fresh comparisons size) := by
  have hCollect : P collectObjectsOfClass :=
    hP.andThenUnlessStopped
      (hP.andThen (hP.jvmti _ rfl) (hP.followReferences _))
      (hP.andThenUnlessStopped hP.getObjectsByTags
        (hP.jvmti _ rfl))
  refine hP.bind hCollect (fun err => ?_)
  split
  swap
  · exact hP.ret _
  refine hP.bind (closed_calculateRetainedSizes hP fresh) ?_
  rintro ⟨err, retainedSize⟩
  dsimp only
  split
  · exact hP.unlessStopped (hP.ret _)
      (hP.bind (closed_sort hP _)
        (fun _ => closed_readSizes hP _ _))
  · exact hP.ret _

end RetainedSizesByClassViaDominatorTreeAction

namespace PathsToClosestGcRootsAction

theorem closed_tagReferences
    (classes : List (Bool × Nat)) :
    P (tagReferences classes) := by
  induction classes with
  | nil => exact hP.ret _
  | cons p rest ih =>
      rcases p with ⟨isReference, j⟩
      unfold tagReferences
      split
      · exact hP.bind (hP.jvmti _ rfl) (fun _ => ih)
      · exact ih

theorem closed_createTags
    (classes : List Bool) :
    P (createTags classes) := by
  have hClasses : P (setTagsForReferences classes) :=
    hP.loaded (closed_tagReferences hP _)
  refine hP.bind hClasses (fun _ => ?_)
  exact hP.bind (hP.jvmti _ rfl) (fun _ =>
    hP.bind (hP.FollowReferences _) (fun _ => hP.ret _))

theorem closed_stopsDuringSearch
    (rounds : Nat) :
    P (stopsDuringSearch rounds) := by
  induction rounds with
  | zero => exact hP.shouldStop
  | succ rounds ih =>
      exact hP.unlessStopped (hP.ret _) ih

theorem closed_createResultObject
    (done : Bool)
    (size : Nat) :
    P (createResultObject done size) := by
  refine hP.bind (hP.jvmti _ rfl) (fun err => ?_)
  split
  · refine hP.bind (hP.jvmti _ rfl) (fun err => ?_)
    split
    · exact hP.bind (hP.jvmti _ rfl) (fun _ => hP.ret _)
    · exact hP.ret _
  · exact hP.ret _

theorem closed_executeOperation
    (classes : List Bool)
    (rounds size : Nat) :
    P (executeOperation classes rounds size) := by
  refine hP.bind (closed_createTags hP classes)
    (fun done => ?_)
  refine hP.unlessStopped (hP.ret _) ?_
  refine hP.bind (closed_stopsDuringSearch hP rounds)
    (fun stop => ?_)
  split
  · exact hP.ret _
  · exact closed_createResultObject hP done size

end PathsToClosestGcRootsAction

theorem Closed.executeOperation
    (a : Action) :
    P (executeOperation a) := by
  cases a with
  | size =>
      exact RetainedSizeAndHeldObjectsAction.closed_executeOperation
        hP
  | estimateRetainedSize objects walks =>
      exact RetainedSizeByObjectsAction.closed_executeOperation
        hP objects walks
  | getShallowSizeByClasses classes =>
      exact ShallowSizeByClassesAction.closed_executeOperation
        hP classes
  | getRetainedSizeByClasses classes walks =>
      exact closed_getRetainedSizeByClasses hP classes walks
  | getShallowAndRetainedSizeByClasses classes walks =>
      exact hP.bind
        (RetainedSizeAction.closed_getSizes hP
          _ _ classes walks) (fun _ => hP.ret _)
  | getShallowAndRetainedSizesByObjects fresh =>
      exact closed_getShallowAndRetainedSizesByObjects hP
        fresh
  | getSortedShallowAndRetainedSizesByClass
      fresh comparisons size =>
      exact RetainedSizesByClassViaDominatorTreeAction.closed_executeOperation
        hP fresh comparisons size
  | findPathsToClosestGcRoots classes rounds size =>
      exact PathsToClosestGcRootsAction.closed_executeOperation
        hP classes rounds size

end Operations

end Actions

end MemoryAgent
