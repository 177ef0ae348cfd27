import MemoryAgent.Actions.CallbackWrappers
import MemoryAgent.Sizes.Tags.Actions

/-
  The iterations of the size actions through the wrapped
  callbacks.  A wrapped `IterateThroughHeap` does what some
  of the calls of the stage do, so that an interrupted one
  is a stage after which `cleanHeap` begins early.

  Key definitions include:
    * `SizesTags.iterationCallback`

  Main results:
    * `SizesTags.run_iterate`
    * `SizesTags.iterateThroughHeap_calls`
-/

------------------------------------------------------------
-- Calls of an Iteration
------------------------------------------------------------

namespace MemoryAgent

namespace SizesTags

open CancellationChecker

/-
  A callback of the size actions.  None of them aborts the
  iteration; its data is absent after it has used a tag that
  was deleted.
-/
def iterationCallback
    (m : TagAddresses)
    (callback : Iteration) :
    HeapIterationCallback jlong (Option TagMemory) :=
  fun classTag _ tag user =>
    match user.bind (callback.run m classTag tag) with
    | none => (tag, none, false)
    | some (b, tags) => (b, some tags, false)

section Iterations

variable {O : Type}
variable [DecidableEq O]
variable {m : TagAddresses}
variable {h : Heap O}
variable {data : Tagged O jlong (Option TagMemory)}

theorem invokeOnObject_iterationCallback
    (callback : Iteration)
    (o : O) :
    h.invokeOnObject (iterationCallback m callback) o data =
      (setTag o
        (callback.run m (data.tag (h.classOf o))
          (data.tag o)) data, .skip) := by
  unfold Heap.invokeOnObject iterationCallback setTag
  cases data.user.bind
      (callback.run m (data.tag (h.classOf o))
        (data.tag o)) with
  | none => simp [Tagged.setTag]
  | some answer => rfl

variable [Fintype O]

/- The calls for some objects, one after another. -/
theorem run_iterate
    (callback : Iteration)
    (before todo : List O)
    (stages : List (Stage O))
    (objects pending : List O) :
    run m
        ⟨h, data,
          .running (.iterate callback (before ++ todo)) stages
            objects⟩
        (List.replicate before.length .call) =
      some
        ⟨h,
          h.iterateThroughHeap pending
            (iterationCallback m callback) data before,
          .running (.iterate callback todo) stages
            objects⟩ := by
  induction before generalizing data pending with
  | nil => rfl
  | cons o before ih =>
      have hReport :
          Worklist.report objectsOnly
              (h.invokeOnObject
                (iterationCallback m callback)) o
              ⟨pending, [], data⟩ =
            ⟨pending.erase o, [],
              setTag o
                (callback.run m (data.tag (h.classOf o))
                  (data.tag o)) data⟩ := by
        unfold Worklist.report
        rw [invokeOnObject_iterationCallback]
      unfold Heap.iterateThroughHeap Worklist.replay
      rw [hReport]
      exact ih (pending.erase o)

/-
  What a wrapped iteration leaves behind, whatever the clock
  and the file are: the state after as many calls as its
  callback has seen objects, all of them or all but the last
  one, at which the run had to stop.
-/
theorem iterateThroughHeap_calls
    (callback : Iteration)
    (filtered : List O)
    (finishTime : Int)
    (earlier : List Reading)
    (readings : Nat → Reading)
    (order : List O)
    (hOrder :
      Worklist.Valid objectsOnly
        (h.invokeOnObject
          (iterateThroughHeapCallbackWrapper readings
            (iterationCallback m callback)))
        order
        ⟨filtered, [], ⟨data.tag, .start data.user
          ((initial finishTime).run earlier)⟩⟩) :
    ∃ before,
      (before = order ∨
        ∃ o, order = before ++ [o] ∧
          (initial finishTime).shouldStopExecution
            (readings before.length) = true) ∧
      ∀ todo stages objects,
        run m
            ⟨h, data,
              .running (.iterate callback (before ++ todo))
                stages objects⟩
            (List.replicate before.length .call) =
          some
            ⟨h,
              (h.iterateThroughHeap filtered
                (iterateThroughHeapCallbackWrapper readings
                  (iterationCallback m callback))
                ⟨data.tag, .start data.user
                  ((initial finishTime).run earlier)⟩
                order).unwrapped,
              .running (.iterate callback todo) stages
                objects⟩ := by
  rcases iterateThroughHeap_wrapped h filtered
      (iterationCallback m callback) finishTime earlier
      readings data.tag data.user order hOrder with
    ⟨before, _, hSame, hEnd, _⟩
  refine ⟨before, hEnd, ?_⟩
  intro todo stages objects
  rw [hSame]
  exact run_iterate callback before todo stages objects
    filtered

end Iterations

end SizesTags

end MemoryAgent
