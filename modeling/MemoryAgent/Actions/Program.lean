import MemoryAgent.Actions.Calls

/-
  The heap queries that can be cancelled, as ladders of JVMTI
  calls with their early exits, and `run` around them.

  What the callbacks of the traversals compute is modelled
  elsewhere.  Here a number stands for how it came about, and
  what the heap answers in a run (which objects have a tag
  already, which classes are assignable) is a parameter.

  Key definitions include:
    * `Actions.Call`
    * `Actions.Number`
    * `Actions.Action`
    * `Actions.executeOperation`
    * `Actions.runAction`
-/

------------------------------------------------------------
-- JVMTI Calls
------------------------------------------------------------

namespace MemoryAgent

namespace Actions

open Calls

abbrev jvmtiError := Error

def JVMTI_ERROR_NONE : jvmtiError := 0

def MEMORY_AGENT_INTERRUPTED_ERROR : jvmtiError := 999

/- The object or the class that a call is about. -/
inductive Place where
  | start
  | held
  | object (i : Nat)
  | retagged (i : Nat)
  | withNewInfo (i : Nat)
  | walked (i : Nat)
  | array
  | classRef
  | untaggedClassRef
  | inheritor (i j : Nat)
  | left (k : Nat)
  | right (k : Nat)
  | result (i : Nat)
  | referenceClass (j : Nat)
  | target
deriving DecidableEq

inductive Traversal where
  | collectObjects
  | firstTraversal
  | secondTraversal
  | getTagsWithNewInfo
  | visitReference
  | spreadInfo (i : Nat)
  | collectPaths
deriving DecidableEq

inductive Iteration where
  | tagObjectOfTaggedClass
  | retagStartObjects
  | visitObject
  | visitObjectForShallowAndRetainedSize
  | calculateShallowSize
  | cleanHeap
deriving DecidableEq

inductive Call where
  | SetTag (place : Place)
  | GetTag (place : Place)
  | GetObjectSize (place : Place)
  | GetLoadedClasses (i : Option Nat)
  | GetClassSignature (i j : Nat)
  | GetObjectsWithTags
  | DeallocateObjects
  | DeallocateTags
  | FollowReferences (callback : Traversal)
  | IterateThroughHeap (callback : Iteration)
deriving DecidableEq

/-
  The code of the call is not looked at, and what the call
  assigns is used as an index or as a bound.  The classes
  are here those among which the references are looked for.
-/
def isUnchecked : Call → Bool
| .GetTag (.left _) => true
| .GetTag (.right _) => true
| .GetTag (.result _) => true
| .GetLoadedClasses none => true
| _ => false

abbrev Program := Prog Call

/- How a number has come about. -/
inductive Number where
  | unassigned
  | incomplete
  | computed
deriving DecidableEq

/- What the callbacks of a sweep have added up. -/
def Number.ofSweep (completed : Bool) : Number :=
  if completed then .computed else .incomplete

/- A variable that a call assigns when it succeeds. -/
def Number.ofCall (err : jvmtiError) : Number :=
  if isOk err then .computed else .unassigned

def Number.add : Number → Number → Number
| .computed, .computed => .computed
| .unassigned, _ => .unassigned
| _, .unassigned => .unassigned
| _, _ => .incomplete

def shouldStopExecution : Program Bool :=
  .shouldStop .ret

def jvmti (c : Call) : Program jvmtiError :=
  .call c .ret

/-
  The wrappers of the two sweeps.  The second component says
  whether the sweep ran to completion.
-/
def FollowReferences
    (callback : Traversal) : Program (jvmtiError × Bool) :=
  .shouldStop fun stop =>
    if stop then
      .ret (MEMORY_AGENT_INTERRUPTED_ERROR, false)
    else
      .sweep (.FollowReferences callback)
        fun err done => .ret (err, done)

def IterateThroughHeap
    (callback : Iteration) : Program (jvmtiError × Bool) :=
  .shouldStop fun stop =>
    if stop then
      .ret (MEMORY_AGENT_INTERRUPTED_ERROR, false)
    else
      .sweep (.IterateThroughHeap callback)
        fun err done => .ret (err, done)

def followReferences
    (callback : Traversal) : Program jvmtiError := do
  let (err, _) ← FollowReferences callback
  pure err

def iterateThroughHeap
    (callback : Iteration) : Program jvmtiError := do
  let (err, _) ← IterateThroughHeap callback
  pure err

/- Two checks between the steps of an operation. -/
def andThenUnlessStopped
    (p q : Program jvmtiError) : Program jvmtiError :=
  andThen p (do
    if ← shouldStopExecution then
      pure MEMORY_AGENT_INTERRUPTED_ERROR
    else
      q)

/- The tagged objects are stored before the deallocation. -/
def getObjectsByTags : Program jvmtiError :=
  andThen (jvmti .GetObjectsWithTags)
    (andThen (jvmti .DeallocateObjects)
      (jvmti .DeallocateTags))

/- A tag that is there already is only extended. -/
def setNewTag
    (place : Place)
    (fresh : Bool) : Program jvmtiError :=
  if fresh then
    jvmti (.SetTag place)
  else
    pure JVMTI_ERROR_NONE

------------------------------------------------------------
-- The Size of an Object
------------------------------------------------------------

namespace RetainedSizeAndHeldObjectsAction

def traverseHeapForTheFirstTime : Program jvmtiError :=
  andThenUnlessStopped (jvmti (.SetTag .start))
    (followReferences .firstTraversal)

def traverseHeapFromStartObjectAndCountRetainedSize :
    Program (jvmtiError × Number) := do
  let (err, done) ← FollowReferences .secondTraversal
  let retainedSize := Number.ofSweep done
  if isOk err then
    if ← shouldStopExecution then
      pure (MEMORY_AGENT_INTERRUPTED_ERROR, retainedSize)
    else
      let err ← jvmti (.SetTag .held)
      if isOk err then
        let err ← jvmti (.GetObjectSize .held)
        if isOk err then
          pure (JVMTI_ERROR_NONE,
            retainedSize.add (.ofCall err))
        else
          pure (err, .incomplete)
      else
        pure (err, .incomplete)
  else
    pure (err, retainedSize)

/- The retained size is no longer changed at the end. -/
def estimateObjectSize : Program (jvmtiError × Number) := do
  let err ← traverseHeapForTheFirstTime
  if isOk err then
    if ← shouldStopExecution then
      pure (MEMORY_AGENT_INTERRUPTED_ERROR, .unassigned)
    else
      let (err, retainedSize) ←
        traverseHeapFromStartObjectAndCountRetainedSize
      if isOk err then
        if ← shouldStopExecution then
          pure (MEMORY_AGENT_INTERRUPTED_ERROR, retainedSize)
        else
          let err ← getObjectsByTags
          pure (err, retainedSize)
      else
        pure (err, retainedSize)
  else
    pure (err, .unassigned)

/- An error is logged, and the sizes are returned. -/
def executeOperation : Program (List Number) := do
  let (_, retainedSize) ← estimateObjectSize
  let err ← jvmti (.GetObjectSize .start)
  pure [.ofCall err, retainedSize]

end RetainedSizeAndHeldObjectsAction

------------------------------------------------------------
-- Walks from Objects
------------------------------------------------------------

/-
  `walks` lists, for the objects with new info, whether their
  tag is in `tagsWithNewInfo` when their turn comes.  These
  traversals are made without the wrapper: the question is
  asked before the tag is read, and `spreadInfo` itself asks
  nothing, so in the agent no stop cuts them short.
-/
def walkHeapFromObjects
    (walks : List Bool) : Program jvmtiError :=
  forEach
    (fun (walk : Bool × Nat) => do
      if ← shouldStopExecution then
        pure MEMORY_AGENT_INTERRUPTED_ERROR
      else
        andThen (jvmti (.GetTag (.walked walk.2)))
          (if walk.1 then
            .sweep (.FollowReferences (.spreadInfo walk.2))
              fun err _ => .ret err
          else
            pure JVMTI_ERROR_NONE))
    walks.zipIdx

------------------------------------------------------------
-- Retained Sizes of Objects
------------------------------------------------------------

/-
  An object of the argument: whether its tag is new at first,
  whether it has `TagWithNewInfo` after the first traversal,
  and whether its tag is new once more.
-/
structure ArgumentObject where
  fresh : Bool
  newInfo : Bool
  freshAgain : Bool
deriving DecidableEq

namespace RetainedSizeByObjectsAction

def createTagForObject
    (place : Place)
    (fresh : Bool) : Program jvmtiError :=
  andThen (jvmti (.GetTag place)) (setNewTag place fresh)

def goOn : Program jvmtiError := do
  if ← shouldStopExecution then
    pure MEMORY_AGENT_INTERRUPTED_ERROR
  else
    pure JVMTI_ERROR_NONE

def createTagsForObjects
    (objects : List ArgumentObject) : Program jvmtiError :=
  forEach
    (fun (object : ArgumentObject × Nat) =>
      andThen
        (createTagForObject (.object object.2)
          object.1.fresh)
        goOn)
    objects.zipIdx

def retagStartObjects
    (objects : List ArgumentObject) : Program jvmtiError :=
  andThen
    (forEach
      (fun (object : ArgumentObject × Nat) =>
        andThen (jvmti (.GetTag (.withNewInfo object.2)))
          goOn)
      objects.zipIdx)
    (forEach
      (fun (object : ArgumentObject × Nat) =>
        andThen
          (createTagForObject (.retagged object.2)
            object.1.freshAgain)
          goOn)
      (objects.zipIdx.filter (fun object =>
        object.1.newInfo)))

def tagHeap
    (objects : List ArgumentObject)
    (walks : List Bool) : Program jvmtiError :=
  andThenUnlessStopped (followReferences .getTagsWithNewInfo)
    (andThenUnlessStopped getObjectsByTags
      (andThenUnlessStopped (retagStartObjects objects)
        (andThenUnlessStopped
          (followReferences .visitReference)
          (walkHeapFromObjects walks))))

def executeOperation
    (objects : List ArgumentObject)
    (walks : List Bool) : Program (List Number) := do
  let err ←
    andThen (createTagsForObjects objects)
      (tagHeap objects walks)
  if isOk err then
    let (err, done) ← IterateThroughHeap .visitObject
    if isOk err then
      pure (objects.map (fun _ => Number.ofSweep done))
    else
      pure []
  else
    pure []

end RetainedSizeByObjectsAction

------------------------------------------------------------
-- Tags of Classes
------------------------------------------------------------

/-
  A loaded class and a class of the argument: whether the
  first one is assignable to the second one, whether it is a
  class of filler objects, and whether `createTag` makes a
  new tag for it.
-/
structure LoadedClass where
  assignable : Bool
  filler : Bool
  fresh : Bool
deriving DecidableEq

/-
  The second component says whether all inheritors have got
  their tag.  A class without signature is passed over.
-/
def tagLoadedClasses
    (i : Nat) :
    List (LoadedClass × Nat) → Program (jvmtiError × Bool)
| [] => pure (JVMTI_ERROR_NONE, true)
| (loaded, j) :: rest =>
    if loaded.assignable then do
      let err ← jvmti (.GetTag (.inheritor i j))
      if isOk err then
        let signature ← jvmti (.GetClassSignature i j)
        if isOk signature && !loaded.filler then
          let err ← setNewTag (.inheritor i j) loaded.fresh
          if isOk err then
            tagLoadedClasses i rest
          else
            pure (err, false)
        else
          let (err, tagged) ← tagLoadedClasses i rest
          pure (err, tagged && loaded.filler)
      else
        pure (err, false)
    else
      tagLoadedClasses i rest

def tagClassAndItsInheritors
    (i : Nat)
    (loaded : List LoadedClass) :
    Program (jvmtiError × Bool) := do
  let err ← jvmti (.GetLoadedClasses (some i))
  if isOk err then
    tagLoadedClasses i loaded.zipIdx
  else
    pure (err, false)

/- The number of a class whose inheritors are not tagged. -/
def Number.ofClass
    (done tagged : Bool) : Number :=
  if tagged then .ofSweep done else .incomplete

namespace ShallowSizeByClassesAction

/- An error is logged, and the next class is tagged. -/
def tagClasses :
    List (List LoadedClass × Nat) → Program (List Bool)
| [] => pure []
| (loaded, i) :: rest => do
    let (err, tagged) ← tagClassAndItsInheritors i loaded
    let others ← tagClasses rest
    pure ((isOk err && tagged) :: others)

/- The error of the iteration is ignored. -/
def executeOperation
    (classes : List (List LoadedClass)) :
    Program (List Number) := do
  let tagged ← tagClasses classes.zipIdx
  if ← shouldStopExecution then
    pure []
  else
    let (_, done) ← IterateThroughHeap .calculateShallowSize
    pure (tagged.map (Number.ofClass done))

end ShallowSizeByClassesAction

namespace RetainedSizeAction

def createTagsForClasses :
    List (List LoadedClass × Nat) →
      Program (jvmtiError × List Bool)
| [] => pure (JVMTI_ERROR_NONE, [])
| (loaded, i) :: rest => do
    let (err, tagged) ← tagClassAndItsInheritors i loaded
    if isOk err then
      let (err, others) ← createTagsForClasses rest
      pure (err, tagged :: others)
    else
      pure (err, [])

def tagHeap (walks : List Bool) : Program jvmtiError :=
  andThenUnlessStopped (followReferences .getTagsWithNewInfo)
    (andThenUnlessStopped getObjectsByTags
      (andThenUnlessStopped
        (iterateThroughHeap .retagStartObjects)
        (andThenUnlessStopped
          (followReferences .visitReference)
          (walkHeapFromObjects walks))))

/-
  Both actions by classes: the code, and the numbers in the
  vectors, which are empty until they are resized.  Each
  vector has one number for every class.
-/
def getSizes
    (callback : Iteration)
    (vectors : Nat)
    (classes : List (List LoadedClass))
    (walks : List Bool) :
    Program (jvmtiError × List Number) := do
  let (err, tagged) ← createTagsForClasses classes.zipIdx
  if isOk err then
    let err ←
      andThenUnlessStopped
        (iterateThroughHeap .tagObjectOfTaggedClass)
        (tagHeap walks)
    if isOk err then
      if ← shouldStopExecution then
        pure (MEMORY_AGENT_INTERRUPTED_ERROR, [])
      else
        let (err, done) ← IterateThroughHeap callback
        let sizes := tagged.map (Number.ofClass done)
        pure (err, (List.replicate vectors sizes).flatten)
    else
      pure (err, [])
  else
    pure (err, [])

end RetainedSizeAction

namespace RetainedSizeByClassesAction

def executeOperation
    (classes : List (List LoadedClass))
    (walks : List Bool) : Program (List Number) := do
  let (err, result) ←
    RetainedSizeAction.getSizes .visitObject 1 classes walks
  if isOk err then pure result else pure []

end RetainedSizeByClassesAction

namespace RetainedAndShallowSizeByClassesAction

/- The vectors are packed before the error is looked at. -/
def executeOperation
    (classes : List (List LoadedClass))
    (walks : List Bool) : Program (List Number) := do
  let (_, result) ←
    RetainedSizeAction.getSizes
      .visitObjectForShallowAndRetainedSize 2 classes walks
  pure result

end RetainedAndShallowSizeByClassesAction

------------------------------------------------------------
-- Retained Sizes by Way of a Dominator Tree
------------------------------------------------------------

namespace RetainedSizesAction

/- `fresh` says which objects get a start tag. -/
def initAndSetTagsForObjects
    (fresh : List Bool) : Program jvmtiError :=
  forEach
    (fun (object : Bool × Nat) =>
      andThen (jvmti (.GetTag (.object object.2)))
        (if object.1 then
          andThen (jvmti (.SetTag (.object object.2)))
            (jvmti (.GetObjectSize (.object object.2)))
        else
          pure JVMTI_ERROR_NONE))
    fresh.zipIdx

def tagsForTraversals
    (fresh : List Bool) : Program jvmtiError :=
  andThen (initAndSetTagsForObjects fresh)
    (jvmti (.SetTag .array))

/-
  The retained sizes that are there in the end.  When the run
  has to stop, the code is the one of the traversal.
-/
def calculateRetainedSizes
    (fresh : List Bool) :
    Program (jvmtiError × Number) := do
  let err ←
    andThen (tagsForTraversals fresh)
      (followReferences .firstTraversal)
  if isOk err then
    if ← shouldStopExecution then
      pure (err, .unassigned)
    else
      let (err, done) ← FollowReferences .secondTraversal
      if isOk err then
        if ← shouldStopExecution then
          pure (err, .unassigned)
        else
          pure (err, .ofSweep done)
      else
        pure (err, .unassigned)
  else
    pure (err, .unassigned)

/-
  A tag that is an index of the vectors.  The code of the
  call is not looked at: where it fails, the index is one
  that was never assigned.
-/
def getIndex (place : Place) : Program Unit := do
  let err ← jvmti (.GetTag place)
  if isOk err then pure () else .undefined (pure ())

/- The sizes at the index of an object. -/
def readSizes
    (retainedSize : Number) :
    List Nat → Program (List Number)
| [] => pure []
| i :: rest => do
    getIndex (.result i)
    let others ← readSizes retainedSize rest
    pure (retainedSize :: .computed :: others)

end RetainedSizesAction

namespace RetainedSizesViaDominatorTreeAction

open RetainedSizesAction

/- `nullptr` holds no numbers. -/
def executeOperation
    (fresh : List Bool) : Program (List Number) := do
  let (err, retainedSize) ← calculateRetainedSizes fresh
  if isOk err then
    if ← shouldStopExecution then
      pure []
    else
      readSizes retainedSize (List.range fresh.length)
  else
    pure []

end RetainedSizesViaDominatorTreeAction

namespace RetainedSizesByClassViaDominatorTreeAction

open RetainedSizesAction

/- The comparisons of the sorting algorithm. -/
def sort : List Nat → Program Unit
| [] => pure ()
| k :: rest => do
    getIndex (.left k)
    getIndex (.right k)
    sort rest

/- After a stop or an error the operation returns nothing. -/
def collectObjectsOfClass : Program jvmtiError :=
  andThenUnlessStopped
    (andThen (jvmti (.SetTag .classRef))
      (followReferences .collectObjects))
    (andThenUnlessStopped getObjectsByTags
      (jvmti (.SetTag .untaggedClassRef)))

/-
  `fresh` has an entry for every object of the class, and
  `size` of these objects are in the result.
-/
def executeOperation
    (fresh : List Bool)
    (comparisons size : Nat) : Program (List Number) := do
  let err ← collectObjectsOfClass
  if isOk err then
    let (err, retainedSize) ← calculateRetainedSizes fresh
    if isOk err then
      if ← shouldStopExecution then
        pure []
      else
        sort (List.range comparisons)
        readSizes retainedSize (List.range size)
    else
      pure []
  else
    pure []

end RetainedSizesByClassViaDominatorTreeAction

------------------------------------------------------------
-- Paths to the Closest GC Roots
------------------------------------------------------------

namespace PathsToClosestGcRootsAction

/- An error is logged, and the next class is tagged. -/
def tagReferences : List (Bool × Nat) → Program Unit
| [] => pure ()
| (isReference, j) :: rest => do
    if isReference then
      let _ ← jvmti (.SetTag (.referenceClass j))
      tagReferences rest
    else
      tagReferences rest

/-
  `classes` says which loaded classes are reference classes.
  When the call fails, the error is logged and the loop goes
  over classes whose number and place were never assigned.
-/
def setTagsForReferences
    (classes : List Bool) : Program Unit := do
  let err ← jvmti (.GetLoadedClasses none)
  if isOk err then
    tagReferences classes.zipIdx
  else
    .undefined (pure ())

/- Errors are logged. -/
def createTags (classes : List Bool) : Program Bool := do
  setTagsForReferences classes
  let _ ← jvmti (.SetTag .target)
  let (_, done) ← FollowReferences .collectPaths
  pure done

/- The search asks once for every tag in its queue. -/
def stopsDuringSearch : Nat → Program Bool
| 0 => shouldStopExecution
| rounds + 1 => do
    if ← shouldStopExecution then
      pure true
    else
      stopsDuringSearch rounds

/- Errors are logged; the links hold `size` numbers. -/
def createResultObject
    (done : Bool)
    (size : Nat) : Program (List Number) := do
  let err ← jvmti .GetObjectsWithTags
  if isOk err then
    let err ← jvmti .DeallocateObjects
    if isOk err then
      let _ ← jvmti .DeallocateTags
      pure (List.replicate size (.ofSweep done))
    else
      pure (List.replicate size (.ofSweep done))
  else
    pure []

def executeOperation
    (classes : List Bool)
    (rounds size : Nat) : Program (List Number) := do
  let done ← createTags classes
  if ← shouldStopExecution then
    pure []
  else
    if ← stopsDuringSearch rounds then
      pure []
    else
      createResultObject done size

end PathsToClosestGcRootsAction

------------------------------------------------------------
-- Actions
------------------------------------------------------------

/- The cancellable heap queries, with what the heap answers. -/
inductive Action where
  | size
  | estimateRetainedSize
      (objects : List ArgumentObject) (walks : List Bool)
  | getShallowSizeByClasses
      (classes : List (List LoadedClass))
  | getRetainedSizeByClasses
      (classes : List (List LoadedClass))
      (walks : List Bool)
  | getShallowAndRetainedSizeByClasses
      (classes : List (List LoadedClass))
      (walks : List Bool)
  | getShallowAndRetainedSizesByObjects
      (fresh : List Bool)
  | getSortedShallowAndRetainedSizesByClass
      (fresh : List Bool) (comparisons size : Nat)
  | findPathsToClosestGcRoots
      (classes : List Bool) (rounds size : Nat)

def executeOperation : Action → Program (List Number)
| .size => RetainedSizeAndHeldObjectsAction.executeOperation
| .estimateRetainedSize objects walks =>
    RetainedSizeByObjectsAction.executeOperation objects walks
| .getShallowSizeByClasses classes =>
    ShallowSizeByClassesAction.executeOperation classes
| .getRetainedSizeByClasses classes walks =>
    RetainedSizeByClassesAction.executeOperation classes walks
| .getShallowAndRetainedSizeByClasses classes walks =>
    RetainedAndShallowSizeByClassesAction.executeOperation
      classes walks
| .getShallowAndRetainedSizesByObjects fresh =>
    RetainedSizesViaDominatorTreeAction.executeOperation fresh
| .getSortedShallowAndRetainedSizesByClass
      fresh comparisons size =>
    RetainedSizesByClassViaDominatorTreeAction.executeOperation
      fresh comparisons size
| .findPathsToClosestGcRoots classes rounds size =>
    PathsToClosestGcRootsAction.executeOperation
      classes rounds size

/- A failure of `cleanHeap` is logged. -/
def cleanHeap : Program Unit := do
  let _ ← jvmti (.IterateThroughHeap .cleanHeap)
  pure ()

inductive ErrorCode where
  | OK
  | TIMEOUT
  | CANCELLED
deriving DecidableEq

/- The error code looks at the file and at the clock only. -/
def getErrorCode
    (w : World Call)
    (time : Nat) : ErrorCode :=
  if w.cancelled time then .CANCELLED
  else if w.timedOut time then .TIMEOUT
  else .OK

structure ReturnValue where
  errorCode : ErrorCode
  numbers : List Number
  completed : List Call

/- `run` of the action, up to the time `endTime`. -/
def operationRun
    (a : Action)
    (w : World Call) : Run Call (List Number) :=
  Calls.run w
    (do
      let result ← executeOperation a
      cleanHeap
      pure result)
    0

def endTime
    (a : Action)
    (w : World Call) : Nat :=
  (operationRun a w).time

def runAction
    (a : Action)
    (w : World Call) : ReturnValue where
  errorCode := getErrorCode w (endTime a w)
  numbers := (operationRun a w).value
  completed := (operationRun a w).completed

end Actions

end MemoryAgent
