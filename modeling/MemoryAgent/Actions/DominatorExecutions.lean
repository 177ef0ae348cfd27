import MemoryAgent.Actions.SizeExecutions
import MemoryAgent.Sizes.ViaDominatorTree.ByObjects

/-
  The query for the sizes of objects by way of a dominator
  tree as it runs: the ladder of its calls, each call with
  what it does to the tags and to the heap dump, and its two
  traversals through the wrapped callbacks.

  Key definitions include:
    * `RetainedSizesViaDominatorTreeAction.HeapDump`
    * `RetainedSizesViaDominatorTreeAction.perform`
    * `RetainedSizesViaDominatorTreeAction.walks`

  Main results:
    * `RetainedSizesViaDominatorTreeAction.quiet_calculate`
    * `RetainedSizesViaDominatorTreeAction.sizes_of_ok`
-/

------------------------------------------------------------
-- Calls on a Heap
------------------------------------------------------------

namespace MemoryAgent

namespace Actions

namespace RetainedSizesViaDominatorTreeAction

open Calls StdVector DominatorTree ViaDominatorTree
open ViaDominatorTree.RetainedSizesViaDominatorTreeAction
  (Result)

variable {N : Type}
variable [DecidableEq N]

/-
  The heap dump, and what `constructResultObject` has packed
  so far.
-/
structure HeapDump where
  info : UserData
  result : Option Result

/- What follows the second traversal, without any call. -/
def calculation
    (s : Tagged N jlong HeapDump) :
    Option (Calculation N) :=
  match s.user.info with
  | .error _ => none
  | .ok info => do
      let info ← info.setUpNeighboursForMasterNode
      let retainedSizes ←
        calculateRetainedSizesViaDominatorTree
          (info.graph.length + 1) info.graph info.sizes
      some ⟨s.tag, info, retainedSizes⟩

/- `push_back` of both sizes. -/
def push
    (c : Option (Calculation N))
    (result : Option Result)
    (object : N) : Option Result := do
  let c ← c
  let result ← result
  let retainedSize ← c.retainedSize object
  let shallowSize ← c.shallowSize object
  some ⟨result.shallowSizes ++ [shallowSize],
    result.retainedSizes ++ [retainedSize]⟩

/-
  What a call does that succeeds, with the assignments around
  it: `currentTag` is increased before `SetTag`, the vertex
  is added after `GetObjectSize`, and the start tags end
  before the array is tagged.
-/
def perform
    (h : Heap N)
    (array : N)
    (objects : List N)
    (s : Tagged N jlong HeapDump) :
    Call → Tagged N jlong HeapDump
| .SetTag (.object i) =>
    match objects[i]?, s.user.info with
    | some o, .ok info =>
        { s.setTag o info.currentTag with
          user :=
            { s.user with
              info :=
                .ok { info with
                  currentTag := info.currentTag + 1 } } }
    | _, _ => s
| .GetObjectSize (.object i) =>
    match objects[i]?, s.user.info with
    | some o, .ok info =>
        { s with
          user :=
            { s.user with
              info :=
                .ok { info with
                  sizes := info.sizes ++ [h.size o]
                  graph := info.graph ++ [[]] } } }
    | _, _ => s
| .SetTag .array =>
    match s.user.info with
    | .ok info =>
        { s.setTag array mockReferrerTag with
          user :=
            { s.user with
              info :=
                .ok { info with
                  lastStartTag := info.currentTag - 1
                  wasVisitedDuringFirstTraversal :=
                    List.replicate info.currentTag.toNat
                      false } } }
    | .error _ => s
| .GetTag (.result i) =>
    match objects[i]? with
    | some o =>
        { s with
          user :=
            { s.user with
              result := push (calculation s) s.user.result o
            } }
    | none => s
| .IterateThroughHeap .cleanHeap =>
    { s with tag := fun _ => 0 }
| _ => s

/- `fresh` says which objects get a tag when it is read. -/
def Effect
    (h : Heap N)
    (array : N)
    (objects : List N)
    (fresh : List Bool)
    (c : Call)
    (s s' : Tagged N jlong HeapDump) : Prop :=
  (∀ i o, c = .GetTag (.object i) → objects[i]? = some o →
    (fresh[i]? = some true ↔
      s.tag o = 0 ∨ s.tag o = objectOfClassTag)) ∧
    s' = perform h array objects s c

def walks
    (array : N) : Call → Option (Walk N HeapDump)
| .FollowReferences .firstTraversal =>
    some
      { U := UserData
        initialObject := none
        callback := firstTraversal
        load := HeapDump.info
        store := fun data info => { data with info := info } }
| .FollowReferences .secondTraversal =>
    some
      { U := UserData
        initialObject := some array
        callback := secondTraversal
        load := HeapDump.info
        store := fun data info => { data with info := info } }
| _ => none

------------------------------------------------------------
-- Start Tags
------------------------------------------------------------

section Quiet

variable {h : Heap N}
variable {array : N}
variable {objects : List N}
variable {fresh : List Bool}
variable {s t : Variables N HeapDump}
variable {d : Tagged N jlong HeapDumpInfo}
variable {result : Option Result}
variable {err : jvmtiError}

/- The variables are a heap dump that is under construction. -/
def dumped
    (d : Tagged N jlong HeapDumpInfo)
    (result : Option Result) : Tagged N jlong HeapDump :=
  ⟨d.tag, ⟨.ok d.user, result⟩⟩

/- One object of the array. -/
def tagObject (object : Bool × Nat) : Program jvmtiError :=
  andThen (jvmti (.GetTag (.object object.2)))
    (if object.1 then
      andThen (jvmti (.SetTag (.object object.2)))
        (jvmti (.GetObjectSize (.object object.2)))
    else
      pure JVMTI_ERROR_NONE)

theorem quiet_tagObject
    {i : Nat}
    {b : Bool}
    {o : N}
    (hFresh : fresh[i]? = some b)
    (hObject : objects[i]? = some o)
    (hStart : s.values = dumped d result)
    (hRun :
      Quiet (Performs (Effect h array objects fresh))
        (Sweeps.Whole h (walks array)) (tagObject (b, i))
        s err t) :
    err = JVMTI_ERROR_NONE ∧
      t.values = dumped (initAndSetTag h d o) result := by
  rcases hRun with
    ⟨_, s₁, ⟨rfl, ⟨hGuard, hGet⟩, _⟩, hRun⟩
  have hRead : s₁.values = s.values := hGet
  have hIff := hGuard i o rfl hObject
  rw [hFresh, hStart] at hIff
  cases b with
  | false =>
      rcases hRun with ⟨rfl, rfl⟩
      refine ⟨rfl, ?_⟩
      have hNone :
          ¬ (d.tag o = 0 ∨ d.tag o = objectOfClassTag) :=
        fun hTag => absurd (hIff.mpr hTag) (by decide)
      rw [hRead, hStart, initAndSetTag,
        if_pos (not_or.mp hNone)]
  | true =>
      rcases hRun with ⟨_, s₂, ⟨rfl, ⟨_, hSet⟩, _⟩, hRun⟩
      rcases hRun with ⟨_, s₃, ⟨rfl, ⟨_, hSize⟩, _⟩, hRun⟩
      rcases hRun with ⟨rfl, rfl⟩
      refine ⟨rfl, ?_⟩
      rw [hRead, hStart] at hSet
      rw [hSet] at hSize
      have hNot :
          ¬ (d.tag o ≠ 0 ∧ d.tag o ≠ objectOfClassTag) :=
        fun hOld => (hIff.mp rfl).elim hOld.1 hOld.2
      rw [hSize, initAndSetTag, if_neg hNot]
      simp only [perform, hObject, dumped]
      rfl

theorem quiet_tagObjects
    {k : Nat}
    {freshRest : List Bool}
    {objectsRest : List N}
    (hFresh : fresh.drop k = freshRest)
    (hObjects : objects.drop k = objectsRest)
    (hLength : freshRest.length = objectsRest.length)
    (hStart : s.values = dumped d result)
    (hRun :
      Quiet (Performs (Effect h array objects fresh))
        (Sweeps.Whole h (walks array))
        (forEach tagObject (freshRest.zipIdx k)) s err t) :
    err = JVMTI_ERROR_NONE ∧
      t.values =
        dumped (objectsRest.foldl (initAndSetTag h) d)
          result := by
  induction objectsRest generalizing k freshRest s d with
  | nil =>
      rw [List.length_eq_zero_iff.mp hLength] at hRun
      rcases hRun with ⟨rfl, rfl⟩
      exact ⟨rfl, hStart⟩
  | cons o objectsRest ih =>
      cases freshRest with
      | nil => cases hLength
      | cons b freshRest =>
          have hAtFresh : fresh[k]? = some b := by
            rw [← List.head?_drop, hFresh]
            rfl
          have hAtObject : objects[k]? = some o := by
            rw [← List.head?_drop, hObjects]
            rfl
          have hFreshTail : fresh.drop (k + 1) = freshRest := by
            rw [← List.tail_drop, hFresh]
            rfl
          have hObjectsTail :
              objects.drop (k + 1) = objectsRest := by
            rw [← List.tail_drop, hObjects]
            rfl
          rcases quiet_bind_iff.mp hRun with
            ⟨_, s₁, hPart, hRest⟩
          rcases quiet_tagObject hAtFresh hAtObject hStart
              hPart with ⟨rfl, hOne⟩
          exact ih hFreshTail hObjectsTail
            (Nat.succ.inj hLength) hOne hRest

/- The tags and the heap dump before the traversals. -/
theorem quiet_tagsForTraversals
    {tag : N → jlong}
    (hLength : fresh.length = objects.length)
    (hStart :
      s.values = dumped ⟨tag, HeapDumpInfo.initial⟩ result)
    (hRun :
      Quiet (Performs (Effect h array objects fresh))
        (Sweeps.Whole h (walks array))
        (RetainedSizesAction.tagsForTraversals fresh)
        s err t) :
    err = JVMTI_ERROR_NONE ∧
      t.values =
        dumped (tagObjects h array objects tag) result := by
  rcases quiet_bind_iff.mp hRun with ⟨_, s₁, hPart, hRest⟩
  rcases quiet_tagObjects List.drop_zero List.drop_zero
      hLength hStart hPart with ⟨rfl, hLoop⟩
  rcases hRest with ⟨_, s₂, ⟨rfl, ⟨_, hArray⟩, _⟩, hRest⟩
  rcases hRest with ⟨rfl, rfl⟩
  refine ⟨rfl, ?_⟩
  rw [hArray, hLoop]
  rfl

/- The two traversals of an uninterrupted run. -/
theorem quiet_calculate
    {tag : N → jlong}
    {r : jvmtiError × Number}
    (hLength : fresh.length = objects.length)
    (hStart :
      s.values = dumped ⟨tag, HeapDumpInfo.initial⟩ result)
    (hRun :
      Quiet (Performs (Effect h array objects fresh))
        (Sweeps.Whole h (walks array))
        (RetainedSizesAction.calculateRetainedSizes fresh)
        s r t) :
    r.1 = JVMTI_ERROR_NONE ∧
      ∃ first second,
        Traversed h array objects tag first second ∧
          t.values.user.result = result ∧
          calculation t.values =
            calculateRetainedSizes h array objects tag first
              second := by
  rcases quiet_bind_iff.mp hRun with ⟨_, s₁, hPart, hRest⟩
  rcases quiet_bind_iff.mp hPart with ⟨_, s₀, hTags, hFirst⟩
  rcases quiet_tagsForTraversals hLength hStart hTags with
    ⟨rfl, hTagged⟩
  rcases hFirst with
    ⟨_, s₂, ⟨rfl, walk, hWalk, first, hFirst, hEq⟩, hLast⟩
  rcases hLast with ⟨rfl, rfl⟩
  cases hWalk
  rcases hRest with
    ⟨_, s₃, ⟨rfl, walk, hWalk, second, hSecond, hEq'⟩, hLast⟩
  rcases hLast with ⟨rfl, rfl⟩
  cases hWalk
  dsimp only at hFirst hEq hSecond hEq'
  rw [hTagged] at hFirst hEq
  rw [hEq] at hSecond hEq'
  refine ⟨rfl, first, second, ⟨hFirst, hSecond⟩, ?_, ?_⟩
  · rw [hEq']
    rfl
  · rw [hEq']
    rfl

------------------------------------------------------------
-- The Result
------------------------------------------------------------

/- Reading the sizes changes the result only. -/
theorem quiet_readSizes
    {number : Number}
    {numbers : List Number}
    {indices : List Nat}
    (hRun :
      Quiet (Performs (Effect h array objects fresh))
        (Sweeps.Whole h (walks array))
        (RetainedSizesAction.readSizes number indices)
        s numbers t) :
    t.values.user.result =
      (indices.filterMap (fun i => objects[i]?)).foldl
        (push (calculation s.values)) s.values.user.result := by
  induction indices generalizing s numbers with
  | nil =>
      rcases hRun with ⟨_, rfl⟩
      rfl
  | cons i indices ih =>
      rcases hRun with ⟨_, s₁, ⟨rfl, ⟨_, hRead⟩, _⟩, hRun⟩
      have hRun :
          Quiet (Performs (Effect h array objects fresh))
            (Sweeps.Whole h (walks array))
            (RetainedSizesAction.readSizes number indices >>=
              _) s₁ numbers t := hRun
      rcases quiet_bind_iff.mp hRun with
        ⟨_, s₂, hPart, hRest⟩
      rcases hRest with ⟨_, rfl⟩
      have hOthers := ih hPart
      rw [hOthers]
      cases hObject : objects[i]? with
      | none =>
          have hSame : s₁.values = s.values := by
            rw [hRead]
            simp only [perform, hObject]
          rw [hSame, List.filterMap_cons_none hObject]
      | some o =>
          have hPushed :
              s₁.values =
                { s.values with
                  user :=
                    { s.values.user with
                      result :=
                        push (calculation s.values)
                          s.values.user.result o } } := by
            rw [hRead]
            simp only [perform, hObject]
          rw [hPushed, List.filterMap_cons_some hObject,
            List.foldl_cons]
          rfl

omit [DecidableEq N] in
/- The sizes pushed one after the other. -/
theorem foldl_push
    (c : Calculation N)
    (objects : List N)
    (result : Option Result) :
    objects.foldl (push (some c)) result =
      (do
        let result ← result
        let retainedSizes ← objects.mapM c.retainedSize
        let shallowSizes ← objects.mapM c.shallowSize
        some ⟨result.shallowSizes ++ shallowSizes,
          result.retainedSizes ++ retainedSizes⟩) := by
  induction objects generalizing result with
  | nil =>
      cases result with
      | none => rfl
      | some result => simp
  | cons o objects ih =>
      rw [List.foldl_cons, ih, List.mapM_cons,
        List.mapM_cons]
      cases result with
      | none => rfl
      | some result =>
          cases hRetained : c.retainedSize o with
          | none => simp [push, hRetained]
          | some retainedSize =>
              cases hShallow : c.shallowSize o with
              | none => simp [push, hRetained, hShallow]
              | some shallowSize =>
                  simp [push, hRetained, hShallow,
                    Option.bind_assoc]

end Quiet

section Run

variable {O : Type}
variable [DecidableEq O]
variable {h : Heap O}
variable {array : InputArray O}
variable {fresh : List Bool}

/- The positions of a list, and what is there. -/
theorem filterMap_range
    {α : Type}
    (xs : List α) :
    (List.range xs.length).filterMap (fun i => xs[i]?) =
      xs := by
  induction xs with
  | nil => rfl
  | cons x xs ih =>
      rw [List.length_cons, List.range_succ_eq_map,
        List.filterMap_cons, List.filterMap_map]
      exact congrArg (List.cons x) ih

/-
  A quiet execution returns what an uninterrupted run does,
  if that one computes the sizes.
-/
theorem quiet_executeOperation
    {s t : Variables (Option O) HeapDump}
    {numbers : List Number}
    (hLength : fresh.length = array.elements.length)
    (hStart :
      s.values =
        dumped ⟨fun _ => 0, HeapDumpInfo.initial⟩
          (some ⟨[], []⟩))
    (hRun :
      Quiet
        (Performs
          (Effect (array.heap h) none
            (array.elements.map some) fresh))
        (Sweeps.Whole (array.heap h) (walks none))
        (executeOperation fresh) s numbers t) :
    ∃ first second,
      ViaDominatorTree.RetainedSizesViaDominatorTreeAction.Uninterrupted h array first second ∧
        ∀ c,
          ViaDominatorTree.RetainedSizesViaDominatorTreeAction.calculate h array first second = some c →
            t.values.user.result =
              ViaDominatorTree.RetainedSizesViaDominatorTreeAction.executeOperation h array first second
    := by
  rcases quiet_bind_iff.mp hRun with
    ⟨⟨_, number⟩, s₁, hPart, hRest⟩
  have hObjects :
      fresh.length = (array.elements.map some).length :=
    hLength.trans (List.length_map (f := some)).symm
  rcases quiet_calculate hObjects hStart hPart with
    ⟨rfl, first, second, hTraversed, hResult, hCalculation⟩
  have hRead := quiet_readSizes hRest
  refine ⟨first, second, hTraversed, ?_⟩
  intro c hCalculate
  have hSome : calculation s₁.values = some c :=
    hCalculation.trans hCalculate
  rw [hRead, hResult, hSome, hObjects, filterMap_range,
    foldl_push]
  unfold ViaDominatorTree.RetainedSizesViaDominatorTreeAction.executeOperation
    ViaDominatorTree.RetainedSizesViaDominatorTreeAction.constructResultObject
  rw [hCalculate]
  simp only [List.mapM_map, Option.bind_eq_bind,
    Option.bind_some, List.nil_append]
  rfl

/- What `run` does between the two ends of the suspender. -/
def operation (fresh : List Bool) : Program (List Number) := do
  let result ←
    Actions.executeOperation
      (.getShallowAndRetainedSizesByObjects fresh)
  cleanHeap
  pure result

theorem operationRun_eq
    (fresh : List Bool)
    (w : World Call) :
    operationRun (.getShallowAndRetainedSizesByObjects fresh)
        w =
      Calls.run w (operation fresh) 0 :=
  rfl

/- An execution with a new heap dump. -/
theorem executes_operation
    [Fintype O]
    {h : Heap O}
    {array : InputArray O}
    {fresh : List Bool}
    {finishTime : Int}
    {readings : Nat → CancellationChecker.Reading}
    {hStays :
      ∀ n,
        ((readings n).fileExists ||
            decide (finishTime < (readings n).now)) = true →
          ((readings (n + 1)).fileExists ||
            decide (finishTime < (readings (n + 1)).now)) =
              true}
    {numbers : List Number}
    {n : Nat}
    {t : Variables (Option O) HeapDump}
    (hLength : fresh.length = array.elements.length)
    (hRun :
      Executes
        (meaning (array.heap h) readings
          (Effect (array.heap h) none
            (array.elements.map some) fresh)
          (walks none))
        (worldOf finishTime readings hStays).stops
        (operation fresh) 0
        ⟨dumped ⟨fun _ => 0, HeapDumpInfo.initial⟩
            (some ⟨[], []⟩),
          .initial finishTime⟩
        numbers n t) :
    t.values.tag = (fun _ => 0) ∧
      (getErrorCode (worldOf finishTime readings hStays) n =
          .OK →
        (∀ o ∈ array.elements, h.RootReachable o) →
        t.values.user.result =
          some ⟨array.elements.map h.size,
            array.elements.map
              (RetainedSizeAndHeldObjects.retainedSum h)⟩) := by
  rcases executes_bind_iff.mp hRun with
    ⟨_, k, s, hPart, hRest⟩
  rcases hRest with ⟨_, _, ⟨rfl, ⟨_, hClean⟩, _⟩, hRest⟩
  rcases hRest with ⟨rfl, rfl, rfl⟩
  rw [hClean]
  refine ⟨rfl, ?_⟩
  intro hOk hRooted
  have hQuiet :
      Quiet
        (Performs
          (Effect (array.heap h) none
            (array.elements.map some) fresh))
        (Sweeps.Whole (array.heap h) (walks none))
        (executeOperation fresh) _ numbers s :=
    quiet_of_ok (w := worldOf finishTime readings hStays)
      (fun _ => rfl) rfl hPart hOk
  rcases quiet_executeOperation hLength rfl hQuiet with
    ⟨first, second, hUninterrupted, hSame⟩
  rcases ViaDominatorTree.RetainedSizesViaDominatorTreeAction.agrees_of_rooted hUninterrupted hRooted with
    ⟨⟨shallowSizes, retainedSizes⟩, hResult, hAgrees⟩
  rcases Option.bind_eq_some_iff.mp hResult with
    ⟨c, hCalculate, _⟩
  have hShallow : shallowSizes = _ := hAgrees.shallow
  have hRetained : retainedSizes = _ := hAgrees.retained
  rw [← hShallow, ← hRetained]
  exact (hSame c hCalculate).trans hResult

/-
  Whatever the clock and the file are, the query leaves no
  tag, and if it returns OK, then it returns the sizes that
  the objects have: it is never cut short unnoticed.
-/
theorem sizes_of_ok
    [Fintype O]
    (h : Heap O)
    (array : InputArray O)
    (hRooted : ∀ o ∈ array.elements, h.RootReachable o)
    (fresh : List Bool)
    (hLength : fresh.length = array.elements.length)
    (finishTime : Int)
    (readings : Nat → CancellationChecker.Reading)
    (hStays :
      ∀ n,
        ((readings n).fileExists ||
            decide (finishTime < (readings n).now)) = true →
          ((readings (n + 1)).fileExists ||
            decide (finishTime < (readings (n + 1)).now)) =
              true)
    (numbers : List Number)
    (n : Nat)
    (t : Variables (Option O) HeapDump)
    (hRun :
      Executes
        (meaning (array.heap h) readings
          (Effect (array.heap h) none
            (array.elements.map some) fresh)
          (walks none))
        (worldOf finishTime readings hStays).stops
        (operation fresh) 0
        ⟨dumped ⟨fun _ => 0, HeapDumpInfo.initial⟩
            (some ⟨[], []⟩),
          .initial finishTime⟩
        numbers n t) :
    t.values.tag = (fun _ => 0) ∧
      (getErrorCode (worldOf finishTime readings hStays) n =
          .OK →
        t.values.user.result =
          some ⟨array.elements.map h.size,
            array.elements.map
              (RetainedSizeAndHeldObjects.retainedSum h)⟩) := by
  rcases executes_operation hLength hRun with
    ⟨hTag, hResult⟩
  exact ⟨hTag, fun hOk => hResult hOk hRooted⟩

section Example

open RetainedSizeAndHeldObjects (objectAndPair)
open RetainedSizeAndHeldObjectsAction
  (undisturbedReadings undisturbedReadings_stays)

/- An array with the first object of the pair. -/
def firstOfPair : InputArray (Fin 4) where
  elements := [1]
  size := 32
  classOf := 2
  roots := [⟨.jniGlobal, .none, none⟩]
  size_pos := by decide
  roots_isRoot := by decide
  roots_ignored := by decide

theorem firstOfPair_rooted :
    ∀ o ∈ firstOfPair.elements,
      objectAndPair.RootReachable o := by
  intro o hMem
  rw [List.mem_singleton.mp hMem]
  exact .step
    (.root (r := ⟨.monitor, .none, 0⟩)
      (List.mem_cons_self ..) rfl id)
    ⟨⟨.field, .index 0, 1⟩, by decide, rfl⟩ id

theorem sizes_of_ok_firstOfPair :
    ∃ numbers n t,
      Executes
          (meaning (firstOfPair.heap objectAndPair)
            undisturbedReadings
            (Effect (firstOfPair.heap objectAndPair) none
              (firstOfPair.elements.map some) [true])
            (walks none))
          (worldOf 10 undisturbedReadings
            undisturbedReadings_stays).stops
          (operation [true]) 0
          ⟨dumped ⟨fun _ => 0, HeapDumpInfo.initial⟩
              (some ⟨[], []⟩),
            .initial 10⟩
          numbers n t ∧
        t.values.user.result =
          some ⟨firstOfPair.elements.map objectAndPair.size,
            firstOfPair.elements.map
              (RetainedSizeAndHeldObjects.retainedSum
                objectAndPair)⟩ := by
  have hRun :
      Executes
        (meaning (firstOfPair.heap objectAndPair)
          undisturbedReadings
          (Effect (firstOfPair.heap objectAndPair) none
            (firstOfPair.elements.map some) [true])
          (walks none))
        (worldOf 10 undisturbedReadings
          undisturbedReadings_stays).stops
        (operation [true]) 0
        ⟨dumped ⟨fun _ => 0, HeapDumpInfo.initial⟩
            (some ⟨[], []⟩),
          .initial 10⟩
        [.computed, .computed] 11
        ⟨⟨fun _ => 0,
            ⟨.ok ⟨[[], [2], []], [0, 16, 16], [false, true],
              1, 3⟩, some ⟨[16], [32]⟩⟩⟩,
          .initial 10⟩ := by
    refine ⟨_, ⟨_, _⟩, ⟨rfl, ⟨?_, rfl⟩, rfl⟩, ?_⟩
    · rintro _ _ ⟨⟩ ⟨⟩
      exact iff_of_true rfl (Or.inl rfl)
    refine ⟨_, ⟨_, _⟩, ⟨rfl, ⟨nofun, rfl⟩, rfl⟩, ?_⟩
    refine ⟨_, ⟨_, _⟩, ⟨rfl, ⟨nofun, rfl⟩, rfl⟩, ?_⟩
    refine ⟨_, ⟨_, _⟩, ⟨rfl, ⟨nofun, rfl⟩, rfl⟩, ?_⟩
    refine ⟨_, true, _, _, ⟨rfl, _, rfl, _,
      ⟨[⟨none, .jniGlobal, .none, none⟩,
        ⟨none, .monitor, .none, some 0⟩,
        ⟨some (some 0), .field, .index 0, some 1⟩,
        ⟨some (some 0), .field, .index 1, some 2⟩],
        by decide +kernel, iff_of_true rfl ?_, rfl, rfl⟩,
        rfl⟩, ?_⟩
    · unfold Worklist.GoesOn
      decide +kernel
    refine ⟨_, true, _, _, ⟨rfl, _, rfl, _,
      ⟨[⟨some none, .arrayElement, .index 0, some 1⟩,
        ⟨some (some 1), .field, .index 0, some 3⟩],
        by decide +kernel, iff_of_true rfl ?_, rfl, rfl⟩,
        rfl⟩, ?_⟩
    · unfold Worklist.GoesOn
      decide +kernel
    refine ⟨_, ⟨_, _⟩, ⟨rfl, ⟨nofun, rfl⟩, rfl⟩, ?_⟩
    refine ⟨_, ⟨_, _⟩, ⟨rfl, ⟨nofun, rfl⟩, rfl⟩, ?_⟩
    exact ⟨rfl, rfl, rfl⟩
  have hResult :=
    sizes_of_ok objectAndPair firstOfPair firstOfPair_rooted
      [true] rfl 10 undisturbedReadings
      undisturbedReadings_stays _ 11 _ hRun
  exact ⟨_, _, _, hRun, hResult.2 rfl⟩

end Example

end Run

end RetainedSizesViaDominatorTreeAction

end Actions

end MemoryAgent
