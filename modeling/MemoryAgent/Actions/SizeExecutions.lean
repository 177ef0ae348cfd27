import MemoryAgent.Actions.WrappedTraversals
import MemoryAgent.Sizes.HeldSets

/-
  `size` as it runs: the ladder of its calls, each call with
  what it does to the tags and to the variables of the
  action, its traversals through the wrapped callbacks, and
  a clock and a cancellation file that are read at every
  check.

  Key definitions include:
    * `RetainedSizeAndHeldObjectsAction.Sizes`
    * `RetainedSizeAndHeldObjectsAction.perform`
    * `RetainedSizeAndHeldObjectsAction.walks`

  Main results:
    * `RetainedSizeAndHeldObjectsAction.quiet_executeOperation`
    * `RetainedSizeAndHeldObjectsAction.size_of_ok`
-/

------------------------------------------------------------
-- Calls on a Heap
------------------------------------------------------------

namespace MemoryAgent

namespace Actions

namespace RetainedSizeAndHeldObjectsAction

open Calls
open RetainedSizeAndHeldObjects
  (startTag heldObjectTag firstTraversal secondTraversal
    Uninterrupted retainedSum)

variable {O : Type}
variable [DecidableEq O]

/-
  The variables of `executeOperation`.  Neither of the sizes
  is initialized.
-/
structure Sizes (O : Type) where
  retainedSize : jlong
  shallowSize : jlong
  heldObjects : List O

/-
  What a call does that succeeds.  `answer` is what
  `GetObjectsWithTags` returns.
-/
def perform
    (h : Heap O)
    (object : O)
    (answer : List O)
    (s : Tagged O jlong (Sizes O)) :
    Call → Tagged O jlong (Sizes O)
| .SetTag .start => s.setTag object startTag
| .SetTag .held => s.setTag object heldObjectTag
| .GetObjectSize .held =>
    { s with
      user :=
        { s.user with
          retainedSize :=
            s.user.retainedSize + h.size object } }
| .GetObjectSize .start =>
    { s with
      user := { s.user with shallowSize := h.size object } }
| .GetObjectsWithTags =>
    { s with
      user :=
        { s.user with
          heldObjects := s.user.heldObjects ++ answer } }
| .IterateThroughHeap .cleanHeap =>
    { s with tag := fun _ => 0 }
| _ => s

def Effect
    (h : Heap O)
    (object : O)
    (c : Call)
    (s s' : Tagged O jlong (Sizes O)) : Prop :=
  ∃ answer,
    (c = .GetObjectsWithTags →
      Heap.ObjectsWithTags s [heldObjectTag] answer) ∧
    s' = perform h object answer s c

/- `retainedSize` is 0 when the second traversal begins. -/
def walks
    (object : O) : Call → Option (Walk O (Sizes O))
| .FollowReferences .firstTraversal =>
    some
      { U := Unit
        initialObject := none
        callback := firstTraversal
        load := fun _ => ()
        store := fun data _ => data }
| .FollowReferences .secondTraversal =>
    some
      { U := jlong
        initialObject := some object
        callback := secondTraversal
        load := fun _ => 0
        store := fun data retainedSize =>
          { data with retainedSize := retainedSize } }
| _ => none

------------------------------------------------------------
-- Quiet Executions
------------------------------------------------------------

section Quiet

variable {h : Heap O}
variable {object : O}
variable {s t : Variables O (Sizes O)}

theorem quiet_traverseHeapForTheFirstTime
    {err : jvmtiError}
    (hRun :
      Quiet (Performs (Effect h object))
        (Sweeps.Whole h (walks object))
        traverseHeapForTheFirstTime s err t) :
    err = JVMTI_ERROR_NONE ∧
      ∃ first,
        h.FollowReferences none firstTraversal
            (Tagged.setTag ⟨s.values.tag, ()⟩ object startTag)
            first ∧
          t.values =
            ⟨(h.followReferences none firstTraversal
                (Tagged.setTag ⟨s.values.tag, ()⟩ object
                  startTag) first).tag,
              s.values.user⟩ := by
  rcases hRun with
    ⟨_, s₁, ⟨rfl, ⟨_, _, hTagged⟩, _⟩, hRun⟩
  rcases hRun with
    ⟨_, s₂, ⟨rfl, walk, hWalk, first, hFirst, hEq⟩, hRun⟩
  rcases hRun with ⟨rfl, rfl⟩
  cases hWalk
  dsimp only at hFirst hEq
  rw [hTagged] at hFirst hEq
  exact ⟨rfl, first, hFirst, hEq⟩

theorem quiet_traverseHeapFromStartObject
    {result : jvmtiError × Number}
    (hRun :
      Quiet (Performs (Effect h object))
        (Sweeps.Whole h (walks object))
        traverseHeapFromStartObjectAndCountRetainedSize
        s result t) :
    result.1 = JVMTI_ERROR_NONE ∧
      ∃ second,
        h.FollowReferences (some object) secondTraversal
            ⟨s.values.tag, 0⟩ second ∧
          let walked :=
            h.followReferences (some object) secondTraversal
              ⟨s.values.tag, 0⟩ second
          t.values =
            ⟨(walked.setTag object heldObjectTag).tag,
              { s.values.user with
                retainedSize :=
                  walked.user + h.size object }⟩ := by
  rcases hRun with
    ⟨_, s₁, ⟨rfl, walk, hWalk, second, hSecond, hEq⟩, hRun⟩
  rcases hRun with
    ⟨_, s₂, ⟨rfl, ⟨_, _, hTagged⟩, _⟩, hRun⟩
  rcases hRun with
    ⟨_, s₃, ⟨rfl, ⟨_, _, hSized⟩, _⟩, hRun⟩
  rcases hRun with ⟨rfl, rfl⟩
  cases hWalk
  dsimp only at hSecond hEq
  rw [hEq] at hTagged
  rw [hTagged] at hSized
  exact ⟨rfl, second, hSecond, hSized⟩

/-
  A quiet execution is an uninterrupted run, with the same
  retained size and held objects.
-/
theorem quiet_estimateObjectSize
    {result : jvmtiError × Number}
    (hTag : s.values.tag = fun _ => 0)
    (hNone : s.values.user.heldObjects = [])
    (hRun :
      Quiet (Performs (Effect h object))
        (Sweeps.Whole h (walks object))
        estimateObjectSize s result t) :
    ∃ first second,
      Uninterrupted h object first second
          t.values.user.heldObjects ∧
        t.values.user.retainedSize =
          (RetainedSizeAndHeldObjects.estimateObjectSize h
            object first second).user := by
  rcases quiet_bind_iff.mp hRun with
    ⟨err, s₁, hPart, hRest⟩
  rcases quiet_traverseHeapForTheFirstTime hPart with
    ⟨rfl, first, hFirst, hValues⟩
  clear hRun hPart
  have hRun :
      Quiet (Performs (Effect h object))
        (Sweeps.Whole h (walks object))
        (traverseHeapFromStartObjectAndCountRetainedSize >>=
          _) s₁ result t := hRest
  rcases quiet_bind_iff.mp hRun with
    ⟨⟨_, retainedSize⟩, s₂, hPart, hRest⟩
  rcases quiet_traverseHeapFromStartObject hPart with
    ⟨rfl, second, hSecond, hCounted⟩
  rcases hRest with
    ⟨_, s₃, ⟨rfl, ⟨answer, hAnswer, hHeld⟩, _⟩, hRest⟩
  rcases hRest with ⟨_, s₄, ⟨rfl, ⟨_, _, hSame₄⟩, _⟩, hRest⟩
  rcases hRest with ⟨_, s₅, ⟨rfl, ⟨_, _, hSame₅⟩, _⟩, hRest⟩
  rcases hRest with ⟨_, rfl⟩
  have hFinal :
      t.values =
        perform h object answer s₂.values
          .GetObjectsWithTags :=
    hSame₅.trans (hSame₄.trans hHeld)
  have hAnswer := hAnswer rfl
  rw [hTag] at hFirst hValues
  rw [hValues] at hSecond hCounted
  rw [hCounted] at hFinal hAnswer
  rw [hFinal]
  dsimp only [perform]
  rw [hNone, List.nil_append]
  exact ⟨first, second, ⟨hFirst, hSecond, hAnswer⟩, rfl⟩

/- The same, with the shallow size. -/
theorem quiet_executeOperation
    {numbers : List Number}
    (hTag : s.values.tag = fun _ => 0)
    (hNone : s.values.user.heldObjects = [])
    (hRun :
      Quiet (Performs (Effect h object))
        (Sweeps.Whole h (walks object))
        executeOperation s numbers t) :
    t.values.user.shallowSize = h.size object ∧
      ∃ first second,
        Uninterrupted h object first second
            t.values.user.heldObjects ∧
          t.values.user.retainedSize =
            (RetainedSizeAndHeldObjects.estimateObjectSize h
              object first second).user := by
  rcases quiet_bind_iff.mp hRun with ⟨_, s₁, hPart, hRest⟩
  have hBoth := quiet_estimateObjectSize hTag hNone hPart
  rcases hRest with ⟨_, s₂, ⟨rfl, ⟨_, _, hSized⟩, _⟩, hRest⟩
  rcases hRest with ⟨_, rfl⟩
  rw [hSized]
  exact ⟨rfl, hBoth⟩

end Quiet

------------------------------------------------------------
-- The Returned Result
------------------------------------------------------------

/- What `run` does between the two ends of the suspender. -/
def operation : Program (List Number) := do
  let result ← Actions.executeOperation .size
  cleanHeap
  pure result

theorem operationRun_eq (w : World Call) :
    operationRun .size w = Calls.run w operation 0 :=
  rfl

section Operation

variable [Fintype O]
variable {h : Heap O}
variable {object : O}
variable {finishTime : Int}
variable {readings : Nat → CancellationChecker.Reading}

/- An execution with uninitialized sizes. -/
theorem executes_operation
    {hStays :
      ∀ n,
        ((readings n).fileExists ||
            decide (finishTime < (readings n).now)) = true →
          ((readings (n + 1)).fileExists ||
            decide (finishTime < (readings (n + 1)).now)) =
              true}
    {retainedSize shallowSize : jlong}
    {numbers : List Number}
    {n : Nat}
    {t : Variables O (Sizes O)}
    (hRun :
      Executes
        (meaning h readings (Effect h object) (walks object))
        (worldOf finishTime readings hStays).stops operation
        0
        ⟨⟨fun _ => 0, ⟨retainedSize, shallowSize, []⟩⟩,
          .initial finishTime⟩
        numbers n t) :
    t.values.tag = (fun _ => 0) ∧
      (getErrorCode (worldOf finishTime readings hStays) n =
          .OK →
        t.values.user.shallowSize = h.size object ∧
          t.values.user.heldObjects.Nodup ∧
          (∀ o, o ∈ t.values.user.heldObjects ↔
            h.Retained (· = object) o) ∧
          t.values.user.retainedSize =
            retainedSum h object) := by
  rcases executes_bind_iff.mp hRun with
    ⟨_, k, s, hPart, hRest⟩
  rcases hRest with ⟨_, _, ⟨rfl, ⟨_, _, hClean⟩, _⟩, hRest⟩
  rcases hRest with ⟨rfl, rfl, rfl⟩
  rw [hClean]
  refine ⟨rfl, ?_⟩
  intro hOk
  have hQuiet :
      Quiet (Performs (Effect h object))
        (Sweeps.Whole h (walks object)) executeOperation _
        numbers s :=
    quiet_of_ok (w := worldOf finishTime readings hStays)
      (fun _ => rfl) rfl hPart hOk
  rcases quiet_executeOperation rfl rfl hQuiet with
    ⟨hShallow, first, second, hUninterrupted, hSize⟩
  rcases hUninterrupted.retained with
    ⟨hNodup, hMem, hRetained⟩
  exact ⟨hShallow, hNodup, hMem, hSize.trans hRetained⟩

end Operation

/-
  Whatever the clock and the file are, `size` leaves no tag,
  and if it returns OK, then it returns what the object
  retains: it is never cut short unnoticed.
-/
theorem size_of_ok
    [Fintype O]
    (h : Heap O)
    (object : O)
    (finishTime : Int)
    (readings : Nat → CancellationChecker.Reading)
    (hStays :
      ∀ n,
        ((readings n).fileExists ||
            decide (finishTime < (readings n).now)) = true →
          ((readings (n + 1)).fileExists ||
            decide (finishTime < (readings (n + 1)).now)) =
              true)
    (retainedSize shallowSize : jlong)
    (numbers : List Number)
    (n : Nat)
    (t : Variables O (Sizes O))
    (hRun :
      Executes
        (meaning h readings (Effect h object) (walks object))
        (worldOf finishTime readings hStays).stops operation
        0
        ⟨⟨fun _ => 0, ⟨retainedSize, shallowSize, []⟩⟩,
          .initial finishTime⟩
        numbers n t) :
    t.values.tag = (fun _ => 0) ∧
      (getErrorCode (worldOf finishTime readings hStays) n =
          .OK →
        t.values.user.shallowSize = h.size object ∧
          t.values.user.heldObjects.Nodup ∧
          (∀ o, o ∈ t.values.user.heldObjects ↔
            h.Retained (· = object) o) ∧
          t.values.user.retainedSize =
            retainedSum h object) := by
  exact executes_operation hRun

section Example

open RetainedSizeAndHeldObjects
  (objectAndPair firstReports secondReports)

/- Nobody cancels, and the deadline is never reached. -/
def undisturbedReadings
    (_ : Nat) : CancellationChecker.Reading :=
  ⟨0, false⟩

theorem undisturbedReadings_stays :
    ∀ n,
      ((undisturbedReadings n).fileExists ||
          decide (10 < (undisturbedReadings n).now)) =
            true →
        ((undisturbedReadings (n + 1)).fileExists ||
          decide (10 < (undisturbedReadings (n + 1)).now)) =
            true :=
  fun _ hStops => hStops

theorem executes_objectAndPair :
    Executes
      (meaning objectAndPair undisturbedReadings
        (Effect objectAndPair 1) (walks 1))
      (worldOf 10 undisturbedReadings
        undisturbedReadings_stays).stops
      operation 0
      ⟨⟨fun _ => 0, ⟨7, 7, []⟩⟩, .initial 10⟩
      [.computed, .computed] 10
      ⟨⟨fun _ => 0, ⟨32, 16, [1, 3]⟩⟩, .initial 10⟩ := by
  refine ⟨_, ⟨_, _⟩, ⟨rfl, ⟨[], nofun, rfl⟩, rfl⟩, ?_⟩
  refine ⟨_, true, _, _, ⟨rfl, _, rfl, _,
    ⟨firstReports 1, by decide +kernel,
      iff_of_true rfl ?_, rfl, rfl⟩, rfl⟩, ?_⟩
  · unfold Worklist.GoesOn
    decide +kernel
  refine ⟨_, true, _, _, ⟨rfl, _, rfl, _,
    ⟨secondReports 1, by decide +kernel,
      iff_of_true rfl ?_, rfl, rfl⟩, rfl⟩, ?_⟩
  · unfold Worklist.GoesOn
    decide +kernel
  refine ⟨_, ⟨_, _⟩, ⟨rfl, ⟨[], nofun, rfl⟩, rfl⟩, ?_⟩
  refine ⟨_, ⟨_, _⟩, ⟨rfl, ⟨[], nofun, rfl⟩, rfl⟩, ?_⟩
  refine ⟨_, ⟨_, _⟩,
    ⟨rfl, ⟨[1, 3], fun _ => ?_, rfl⟩, rfl⟩, ?_⟩
  · decide +kernel
  refine ⟨_, ⟨_, _⟩, ⟨rfl, ⟨[], nofun, rfl⟩, rfl⟩, ?_⟩
  refine ⟨_, ⟨_, _⟩, ⟨rfl, ⟨[], nofun, rfl⟩, rfl⟩, ?_⟩
  refine ⟨_, ⟨_, _⟩, ⟨rfl, ⟨[], nofun, rfl⟩, rfl⟩, ?_⟩
  refine ⟨_, ⟨_, _⟩, ⟨rfl, ⟨[], nofun, rfl⟩, rfl⟩, ?_⟩
  exact ⟨rfl, rfl, rfl⟩

theorem size_of_ok_objectAndPair :
    ∃ numbers n t,
      Executes
          (meaning objectAndPair undisturbedReadings
            (Effect objectAndPair 1) (walks 1))
          (worldOf 10 undisturbedReadings
            undisturbedReadings_stays).stops
          operation 0
          ⟨⟨fun _ => 0, ⟨7, 7, []⟩⟩, .initial 10⟩ numbers n
          t ∧
        t.values.tag = (fun _ => 0) ∧
        t.values.user.retainedSize =
          retainedSum objectAndPair 1 := by
  have hResult :=
    size_of_ok objectAndPair 1 10 undisturbedReadings
      undisturbedReadings_stays 7 7 _ 10 _
      executes_objectAndPair
  exact ⟨_, _, _, executes_objectAndPair, hResult.1, (hResult.2 rfl).2.2.2⟩

end Example

end RetainedSizeAndHeldObjectsAction

end Actions

end MemoryAgent
