import MemoryAgent.Actions.CancellationChecker
import MemoryAgent.Graph.WrappedCallbacks
import MemoryAgent.Jvmti.Heap

/-
  The wrappers that `FollowReferences` and
  `IterateThroughHeap` of an action put around a callback.
  A wrapped traversal is one of the callback itself, cut off
  at a report at which the run had to stop, and soon after
  it had to.

  Key definitions include:
    * `CallbackWrapperData`
    * `followReferencesCallbackWrapper`
    * `iterateThroughHeapCallbackWrapper`

  Main results:
    * `Checks.cut`
    * `followReferences_wrapped`
    * `followReferences_whole`
    * `iterateThroughHeap_wrapped`
-/

------------------------------------------------------------
-- Repeated Calls
------------------------------------------------------------

namespace MemoryAgent

namespace CancellationChecker

/- The checker after calls with the first readings. -/
def afterCalls
    (c : CancellationChecker)
    (readings : Nat → Reading) : Nat → CancellationChecker
| 0 => c
| n + 1 => (afterCalls c readings n).next (readings n)

section Calls

variable {c : CancellationChecker}
variable {readings : Nat → Reading}

theorem afterCalls_finishTime
    (n : Nat) :
    (c.afterCalls readings n).finishTime = c.finishTime := by
  induction n with
  | zero => rfl
  | succ n ih =>
      unfold afterCalls
      rw [next_finishTime]
      exact ih

theorem Bounded.afterCalls
    (hBounded : c.Bounded)
    (n : Nat) :
    (c.afterCalls readings n).Bounded := by
  induction n with
  | zero => exact hBounded
  | succ n ih => exact ih.next (readings n)

/- Unless the run has to stop, no call says so. -/
theorem shouldStopExecution_of_answer
    {r : Reading}
    (hAnswer :
      (c.shouldStopExecutionSyscallSafe r).1 = true) :
    c.shouldStopExecution r = true := by
  unfold shouldStopExecutionSyscallSafe at hAnswer
  split at hAnswer
  · exact hAnswer
  · cases hAnswer

/- Each call that does not test brings the next test closer. -/
theorem Bounded.exists_tests
    (hBounded : c.Bounded)
    {n k : Nat}
    (hLt : (c.afterCalls readings n).callsToTest < k) :
    ∃ j < k, (c.afterCalls readings (n + j)).Tests := by
  induction k generalizing n with
  | zero => exact absurd hLt (Nat.not_lt_zero _)
  | succ k ih =>
      by_cases hTests : (c.afterCalls readings n).Tests
      · exact ⟨0, Nat.zero_lt_succ k, hTests⟩
      · have hNext :
            (c.afterCalls readings (n + 1)).callsToTest < k :=
          Nat.lt_of_lt_of_le
            ((hBounded.afterCalls n).callsToTest_next hTests
              (readings n))
            (Nat.le_of_lt_succ hLt)
        rcases ih hNext with ⟨j, hJ, hAt⟩
        refine ⟨j + 1, Nat.succ_lt_succ hJ, ?_⟩
        rw [Nat.add_comm j 1, ← Nat.add_assoc]
        exact hAt

theorem Bounded.callsToTest_le
    (hBounded : c.Bounded) :
    c.callsToTest ≤ 10 ^ 9 :=
  (Nat.sub_le _ _).trans hBounded.backOff.le

end Calls

end CancellationChecker

------------------------------------------------------------
-- Checked Traversals
------------------------------------------------------------

open CancellationChecker

/-
  The user data of the wrappers.  The clock and the file may
  be read anew in each call; `calls` numbers the calls.
-/
structure CallbackWrapperData (U : Type) where
  userData : U
  cancellationChecker : CancellationChecker
  calls : Nat

namespace CallbackWrapperData

variable {U : Type}

/- The check that a wrapper makes. -/
def check
    (readings : Nat → Reading)
    (data : CallbackWrapperData U) :
    Bool × CancellationChecker :=
  data.cancellationChecker.shouldStopExecutionSyscallSafe
    (readings data.calls)

def halts
    (readings : Nat → Reading)
    (data : CallbackWrapperData U) : Bool :=
  (data.check readings).1

/- The user data after the check. -/
def checked
    (readings : Nat → Reading)
    (data : CallbackWrapperData U) : CallbackWrapperData U :=
  { data with
    cancellationChecker := (data.check readings).2
    calls := data.calls + 1 }

def start
    (userData : U)
    (c : CancellationChecker) : CallbackWrapperData U :=
  ⟨userData, c, 0⟩

end CallbackWrapperData

section Checked

variable {N E S S' U : Type}
variable [DecidableEq N] [DecidableEq E]

/- Every call makes one check. -/
structure Checks
    (readings : Nat → Reading)
    (outer : Worklist.Callback E S')
    (wrapper : S' → CallbackWrapperData U) : Prop where
  next :
    ∀ edge data,
      (wrapper (outer edge data).1).cancellationChecker =
          ((wrapper data).checked
            readings).cancellationChecker ∧
        (wrapper (outer edge data).1).calls =
          ((wrapper data).checked readings).calls

variable {g : Worklist.Graph N E}
variable {readings : Nat → Reading}
variable {inner : Worklist.Callback E S}
variable {outer : Worklist.Callback E S'}
variable {view : S' → S}
variable {wrapper : S' → CallbackWrapperData U}
variable {c : CancellationChecker}
variable {edges : List E}
variable {state : Worklist.State N E S'}

theorem Checks.replay
    (hChecks : Checks readings outer wrapper)
    (hChecker : (wrapper state.data).cancellationChecker = c)
    (hCalls : (wrapper state.data).calls = 0)
    (hValid : Worklist.Valid g outer edges state) :
    (wrapper (Worklist.replay g outer edges
        state).data).cancellationChecker =
        c.afterCalls readings edges.length ∧
      (wrapper (Worklist.replay g outer edges
        state).data).calls = edges.length := by
  refine Worklist.replay_steps
    (fun n (state : Worklist.State N E S') =>
      (wrapper state.data).cancellationChecker =
          c.afterCalls readings n ∧
        (wrapper state.data).calls = n)
    ?_ hValid ⟨hChecker, hCalls⟩
  rintro n state edge ⟨hChecker, hCalls⟩ _ _
  rcases hChecks.next edge state.data with ⟨hNext, hSucc⟩
  rw [Worklist.report_data]
  refine ⟨?_, ?_⟩
  · rw [hNext]
    unfold CallbackWrapperData.checked
      CallbackWrapperData.check
    rw [hCalls, hChecker]
    rfl
  · rw [hSucc]
    exact congrArg Nat.succ hCalls

/- A check that says so does it when the run has to stop. -/
theorem Checks.stops_of_halts
    (hChecks : Checks readings outer wrapper)
    (hChecker : (wrapper state.data).cancellationChecker = c)
    (hCalls : (wrapper state.data).calls = 0)
    (hValid : Worklist.Valid g outer edges state)
    (hHalts :
      (wrapper (Worklist.replay g outer edges
        state).data).halts readings = true) :
    c.shouldStopExecution (readings edges.length) = true := by
  have hAt := hChecks.replay hChecker hCalls hValid
  unfold CallbackWrapperData.halts CallbackWrapperData.check
    at hHalts
  rw [hAt.1, hAt.2] at hHalts
  have hStop := shouldStopExecution_of_answer hHalts
  unfold shouldStopExecution at hStop ⊢
  rw [afterCalls_finishTime] at hStop
  exact hStop

/-
  The wrapped traversal is one of the callback itself, or it
  is cut off at its last report, at which the run had to
  stop.  From when on it has to, at most `10 ^ 9` calls come
  before that report.
-/
theorem Checks.cut
    (hChecks : Checks readings outer wrapper)
    (hWraps :
      Worklist.Wraps inner outer view
        (fun data => (wrapper data).halts readings))
    (hBounded : c.Bounded)
    (hChecker : (wrapper state.data).cancellationChecker = c)
    (hCalls : (wrapper state.data).calls = 0)
    (hValid : Worklist.Valid g outer edges state) :
    ∃ before,
      Worklist.Valid g inner before (state.mapData view) ∧
      view (Worklist.replay g outer edges state).data =
        (Worklist.replay g inner before
          (state.mapData view)).data ∧
      ((before = edges ∧
          Worklist.GoesOn g outer
            (fun data => (wrapper data).halts readings) edges
            state edges.length) ∨
        ∃ edge, edges = before ++ [edge] ∧
          c.shouldStopExecution (readings before.length) =
            true) ∧
      ∀ n,
        (∀ i, n ≤ i →
          c.shouldStopExecution (readings i) = true) →
        before.length ≤ n + 10 ^ 9 := by
  rcases hWraps.cut hValid with
    ⟨before, hGoes, hInner, hView, hEnd⟩
  have hPrefix : before <+: edges := by
    rcases hEnd with hEq | ⟨edge, hEq, _⟩
    · rw [hEq]
    · exact ⟨[edge], hEq.symm⟩
  -- What the check with the number `k` does.
  have hHalts (k : Nat) (hK : k ≤ before.length) :
      (wrapper (Worklist.replay g outer (edges.take k)
          state).data).halts readings =
        ((c.afterCalls readings
          k).shouldStopExecutionSyscallSafe
            (readings k)).1 := by
    have hSplit := hValid
    rw [← List.take_append_drop k edges,
      Worklist.valid_append_iff] at hSplit
    have hLength : (edges.take k).length = k := by
      rw [List.length_take]
      exact Nat.min_eq_left (hK.trans hPrefix.length_le)
    have hAt := hChecks.replay hChecker hCalls hSplit.1
    rw [hLength] at hAt
    unfold CallbackWrapperData.halts
      CallbackWrapperData.check
    rw [hAt.1, hAt.2]
  refine ⟨before, hInner, hView, ?_, ?_⟩
  · rcases hEnd with hEq | ⟨edge, hEq, hStop⟩
    · rw [hEq] at hGoes
      exact Or.inl ⟨hEq, hGoes⟩
    · rw [hEq, Worklist.valid_append_iff] at hValid
      exact Or.inr ⟨edge, hEq,
        hChecks.stops_of_halts hChecker hCalls hValid.1
          hStop⟩
  · intro n hAll
    by_contra hNot
    have hLess := Nat.lt_of_not_le hNot
    have hSoon :
        (c.afterCalls readings n).callsToTest < 10 ^ 9 + 1 :=
      Nat.lt_succ_of_le (hBounded.afterCalls n).callsToTest_le
    rcases hBounded.exists_tests hSoon with ⟨j, hJ, hTests⟩
    have hJ' : n + j < before.length :=
      Nat.lt_of_le_of_lt
        (Nat.add_le_add_left (Nat.le_of_lt_succ hJ) n) hLess
    have hNone := hGoes (n + j) hJ'
    dsimp only at hNone
    rw [hHalts (n + j) hJ'.le, hTests] at hNone
    have hStop := hAll (n + j) (Nat.le_add_right n j)
    unfold shouldStopExecution at hNone hStop
    rw [afterCalls_finishTime, hStop] at hNone
    cases hNone

end Checked

------------------------------------------------------------
-- References
------------------------------------------------------------

section References

variable {O T U : Type}

/- `JVMTI_VISIT_ABORT` is the answer `stop`. -/
def followReferencesCallbackWrapper
    (readings : Nat → Reading)
    (callback : HeapReferenceCallback T U) :
    HeapReferenceCallback T (CallbackWrapperData U) :=
  fun args data =>
    let next := data.checked readings
    if data.halts readings = true then
      (args.tag, next, .stop)
    else
      let answer := callback args data.userData
      (answer.1, { next with userData := answer.2.1 },
        answer.2.2)

/- The tags, and the user data of the callback itself. -/
def Tagged.unwrapped
    (s : Tagged O T (CallbackWrapperData U)) :
    Tagged O T U :=
  ⟨s.tag, s.user.userData⟩

theorem Heap.traversal_data
    (h : Heap O)
    (initialObject : Option O)
    (s : Tagged O T U) :
    (h.traversal initialObject s).data = s := by
  cases initialObject with
  | none => rfl
  | some o => rfl

theorem Heap.traversal_unwrapped
    (h : Heap O)
    (initialObject : Option O)
    (s : Tagged O T (CallbackWrapperData U)) :
    (h.traversal initialObject s).mapData Tagged.unwrapped =
      h.traversal initialObject s.unwrapped := by
  cases initialObject with
  | none => rfl
  | some o => rfl

variable [DecidableEq O]
variable [Zero T]

theorem wraps_followReferencesCallbackWrapper
    (h : Heap O)
    (readings : Nat → Reading)
    (callback : HeapReferenceCallback T U) :
    Worklist.Wraps (h.invoke callback)
      (h.invoke
        (followReferencesCallbackWrapper readings callback))
      Tagged.unwrapped
      (fun data => data.user.halts readings) := by
  constructor
  · intro r data hHalts
    unfold Heap.invoke followReferencesCallbackWrapper
    dsimp only
    rw [if_pos hHalts]
    refine ⟨rfl, ?_⟩
    unfold Tagged.unwrapped Tagged.setTag
    dsimp only
    rw [show (h.arguments r data).tag = data.tag r.referee
      from rfl, Function.update_eq_self]
    rfl
  · intro r data hGoes
    unfold Heap.invoke followReferencesCallbackWrapper
    dsimp only
    rw [hGoes, if_neg Bool.false_ne_true]
    exact ⟨rfl, rfl⟩

theorem checks_followReferencesCallbackWrapper
    (h : Heap O)
    (readings : Nat → Reading)
    (callback : HeapReferenceCallback T U) :
    Checks readings
      (h.invoke
        (followReferencesCallbackWrapper readings callback))
      Tagged.user := by
  constructor
  intro r data
  unfold Heap.invoke followReferencesCallbackWrapper
  dsimp only
  split
  · exact ⟨rfl, rfl⟩
  · exact ⟨rfl, rfl⟩

/-
  A wrapped `FollowReferences` none of whose checks ends it
  is one of the callback itself.
-/
theorem followReferences_of_goesOn
    {h : Heap O}
    {initialObject : Option O}
    {callback : HeapReferenceCallback T U}
    {readings : Nat → Reading}
    {s : Tagged O T (CallbackWrapperData U)}
    {reports : List (Report O)}
    (hReports :
      h.FollowReferences initialObject
        (followReferencesCallbackWrapper readings callback)
        s reports)
    (hGoes :
      Worklist.GoesOn h.graph
        (h.invoke
          (followReferencesCallbackWrapper readings
            callback))
        (fun data => data.user.halts readings) reports
        (h.traversal initialObject s) reports.length) :
    h.FollowReferences initialObject callback s.unwrapped
        reports ∧
      (h.followReferences initialObject
          (followReferencesCallbackWrapper readings callback)
          s reports).unwrapped =
        h.followReferences initialObject callback s.unwrapped
          reports := by
  have hWraps :=
    wraps_followReferencesCallbackWrapper h readings callback
  have hReplay := hWraps.replay hGoes
  rw [Heap.traversal_unwrapped] at hReplay
  refine ⟨⟨⟨?_, ?_⟩, ?_⟩, ?_⟩
  · rw [← Heap.traversal_unwrapped]
    exact (hWraps.valid_iff hGoes).mp hReports.1.1
  · rw [← hReplay]
    exact hReports.1.2
  · rw [← Heap.traversal_unwrapped]
    exact hReports.2
  · exact congrArg Worklist.State.data hReplay

/-
  Any order of the reports of a wrapped `FollowReferences`
  is one of a whole `FollowReferences` of the callback, with
  the same tags and user data; or its last report comes when
  the run has to stop and is not seen by the callback, and
  up to it the same holds.  At most `10 ^ 9` reports come
  between the time the run has to stop and the last one.
-/
theorem followReferences_wrapped
    {O T U : Type}
    [DecidableEq O]
    [Zero T]
    (h : Heap O)
    (initialObject : Option O)
    (callback : HeapReferenceCallback T U)
    (finishTime : Int)
    (earlier : List Reading)
    (readings : Nat → Reading)
    (tag : O → T)
    (userData : U)
    (reports : List (Report O))
    (hReports :
      h.FollowReferences initialObject
        (followReferencesCallbackWrapper readings callback)
        ⟨tag, .start userData
          ((initial finishTime).run earlier)⟩
        reports) :
    ∃ before,
      Worklist.Valid h.graph (h.invoke callback) before
        (h.traversal initialObject ⟨tag, userData⟩) ∧
      (h.followReferences initialObject
          (followReferencesCallbackWrapper readings callback)
          ⟨tag, .start userData
            ((initial finishTime).run earlier)⟩
          reports).unwrapped =
        h.followReferences initialObject callback
          ⟨tag, userData⟩ before ∧
      ((before = reports ∧
          h.FollowReferences initialObject callback
            ⟨tag, userData⟩ reports) ∨
        ∃ r, reports = before ++ [r] ∧
          (initial finishTime).shouldStopExecution
            (readings before.length) = true) ∧
      ∀ n,
        (∀ i, n ≤ i →
          (initial finishTime).shouldStopExecution
            (readings i) = true) →
        before.length ≤ n + 10 ^ 9 := by
  let c := (initial finishTime).run earlier
  have hData :=
    h.traversal_data initialObject
      (Tagged.mk tag
        (CallbackWrapperData.start userData c))
  have hSame (r : Reading) :
      c.shouldStopExecution r =
        (initial finishTime).shouldStopExecution r := by
    unfold shouldStopExecution
    rw [run_finishTime]
  have hCut :=
    (checks_followReferencesCallbackWrapper h readings
      callback).cut
      (wraps_followReferencesCallbackWrapper h readings
        callback)
      ((Bounded.init finishTime).run earlier)
      (c := c) (congrArg (fun d => d.user.2) hData)
      (congrArg (fun d => d.user.3) hData) hReports.1.1
  simp only [hSame, Heap.traversal_unwrapped] at hCut
  rcases hCut with ⟨before, hValid, hData', hEnd, hSoon⟩
  refine ⟨before, hValid, hData', ?_, hSoon⟩
  rcases hEnd with ⟨hEq, hGoes⟩ | hStop
  · exact Or.inl
      ⟨hEq, (followReferences_of_goesOn hReports hGoes).1⟩
  · exact Or.inr hStop

/-
  If the run need not stop at any of its checks, a wrapped
  `FollowReferences` is one of the callback itself.
-/
theorem followReferences_whole
    {h : Heap O}
    {initialObject : Option O}
    {callback : HeapReferenceCallback T U}
    {readings : Nat → Reading}
    {s : Tagged O T (CallbackWrapperData U)}
    {reports : List (Report O)}
    (hReports :
      h.FollowReferences initialObject
        (followReferencesCallbackWrapper readings callback)
        s reports)
    (hCalls : s.user.calls = 0)
    (hGoes :
      ∀ i < reports.length,
        s.user.cancellationChecker.shouldStopExecution
          (readings i) = false) :
    h.FollowReferences initialObject callback s.unwrapped
        reports ∧
      (h.followReferences initialObject
          (followReferencesCallbackWrapper readings callback)
          s reports).unwrapped =
        h.followReferences initialObject callback s.unwrapped
          reports ∧
      Worklist.GoesOn h.graph
        (h.invoke
          (followReferencesCallbackWrapper readings
            callback))
        (fun data => data.user.halts readings) reports
        (h.traversal initialObject s) reports.length := by
  have hData := h.traversal_data initialObject s
  have hAll :
      Worklist.GoesOn h.graph
        (h.invoke
          (followReferencesCallbackWrapper readings
            callback))
        (fun data => data.user.halts readings) reports
        (h.traversal initialObject s) reports.length := by
    intro k hK
    by_contra hHalts
    rw [Bool.not_eq_false] at hHalts
    have hValid := hReports.1.1
    rw [← List.take_append_drop k reports,
      Worklist.valid_append_iff] at hValid
    have hStop :=
      (checks_followReferencesCallbackWrapper h readings
        callback).stops_of_halts
        (c := s.user.cancellationChecker)
        (congrArg (fun d => d.user.2) hData)
        ((congrArg (fun d => d.user.3) hData).trans hCalls)
        hValid.1 hHalts
    rw [List.length_take, Nat.min_eq_left hK.le,
      hGoes k hK] at hStop
    cases hStop
  rcases followReferences_of_goesOn hReports hAll with
    ⟨hWhole, hSame⟩
  exact ⟨hWhole, hSame, hAll⟩

/- An array, and the object it refers to. -/
def arrayHeap : Heap Bool where
  roots := [⟨.thread, .none, false⟩]
  references := fun o =>
    if o = false then [⟨.arrayElement, .index 0, true⟩] else []
  size := fun _ => 16
  classOf := id
  roots_isRoot := by decide
  references_isHeld := by decide
  size_pos := fun _ => sixteen_pos

/- A callback that visits all objects and counts calls. -/
def countCalls : HeapReferenceCallback jlong Nat :=
  fun args n => (args.tag, n + 1, .visit)

/- The cancellation file is there from the second call on. -/
def fileAppears (n : Nat) : Reading :=
  ⟨0, decide (1 ≤ n)⟩

theorem followReferences_wrapped_fileAppears :
    ∃ before,
      (arrayHeap.followReferences none
          (followReferencesCallbackWrapper fileAppears
            countCalls)
          ⟨fun _ => 0, .start 0 (initial 10)⟩
          [⟨none, .thread, .none, false⟩,
            ⟨some false, .arrayElement, .index 0, true⟩]).unwrapped =
        arrayHeap.followReferences none countCalls
          ⟨fun _ => 0, 0⟩ before ∧
      before.length ≤ 1 + 10 ^ 9 := by
  rcases followReferences_wrapped arrayHeap none countCalls
      10 [] fileAppears (fun _ => 0) 0
      [⟨none, .thread, .none, false⟩,
        ⟨some false, .arrayElement, .index 0, true⟩]
      (by decide +kernel) with
    ⟨before, _, hSame, _, hSoon⟩
  refine ⟨before, hSame, hSoon 1 ?_⟩
  intro i hI
  unfold shouldStopExecution fileAppears
  rw [decide_eq_true hI]
  rfl

end References

------------------------------------------------------------
-- Objects
------------------------------------------------------------

section Objects

variable {O T U : Type}

/-
  From the tag of the class, the size, the tag and the user
  data, a callback returns the new tag, the new user data
  and whether it aborts the iteration.
-/
abbrev HeapIterationCallback (T U : Type) :=
  T → jlong → T → U → T × U × Bool

/- `JVMTI_ITERATION_ABORT` is the answer `true`. -/
def iterateThroughHeapCallbackWrapper
    (readings : Nat → Reading)
    (callback : HeapIterationCallback T U) :
    HeapIterationCallback T (CallbackWrapperData U) :=
  fun classTag size tag data =>
    let next := data.checked readings
    if data.halts readings = true then
      (tag, next, true)
    else
      let answer := callback classTag size tag data.userData
      (answer.1, { next with userData := answer.2.1 },
        answer.2.2)

variable [DecidableEq O]

/- Run a callback on one object. -/
def Heap.invokeOnObject
    (h : Heap O)
    (callback : HeapIterationCallback T U) :
    Worklist.Callback O (Tagged O T U) :=
  fun o s =>
    let answer :=
      callback (s.tag (h.classOf o)) (h.size o) (s.tag o)
        s.user
    ({ s.setTag o answer.1 with user := answer.2.1 },
      if answer.2.2 = true then .stop else .skip)

/- No object leads to another one. -/
def objectsOnly : Worklist.Graph O O where
  target := id
  out := fun _ => []

/-
  What `IterateThroughHeap` leaves behind when it visits
  `order`, a part of `objects`.
-/
def Heap.iterateThroughHeap
    (h : Heap O)
    (objects : List O)
    (callback : HeapIterationCallback T U)
    (s : Tagged O T U)
    (order : List O) : Tagged O T U :=
  (Worklist.replay objectsOnly (h.invokeOnObject callback)
    order ⟨objects, [], s⟩).data

theorem wraps_iterateThroughHeapCallbackWrapper
    (h : Heap O)
    (readings : Nat → Reading)
    (callback : HeapIterationCallback T U) :
    Worklist.Wraps (h.invokeOnObject callback)
      (h.invokeOnObject
        (iterateThroughHeapCallbackWrapper readings
          callback))
      Tagged.unwrapped
      (fun data => data.user.halts readings) := by
  constructor
  · intro o data hHalts
    unfold Heap.invokeOnObject
      iterateThroughHeapCallbackWrapper
    dsimp only
    rw [if_pos hHalts]
    refine ⟨rfl, ?_⟩
    unfold Tagged.unwrapped Tagged.setTag
    dsimp only
    rw [Function.update_eq_self]
    rfl
  · intro o data hGoes
    unfold Heap.invokeOnObject
      iterateThroughHeapCallbackWrapper
    dsimp only
    rw [hGoes, if_neg Bool.false_ne_true]
    exact ⟨rfl, rfl⟩

theorem checks_iterateThroughHeapCallbackWrapper
    (h : Heap O)
    (readings : Nat → Reading)
    (callback : HeapIterationCallback T U) :
    Checks readings
      (h.invokeOnObject
        (iterateThroughHeapCallbackWrapper readings
          callback))
      Tagged.user := by
  constructor
  intro o data
  unfold Heap.invokeOnObject
    iterateThroughHeapCallbackWrapper
  dsimp only
  split
  · exact ⟨rfl, rfl⟩
  · exact ⟨rfl, rfl⟩

/- The same for a wrapped `IterateThroughHeap`. -/
theorem iterateThroughHeap_wrapped
    (h : Heap O)
    (objects : List O)
    (callback : HeapIterationCallback T U)
    (finishTime : Int)
    (earlier : List Reading)
    (readings : Nat → Reading)
    (tag : O → T)
    (userData : U)
    (order : List O)
    (hOrder :
      Worklist.Valid objectsOnly
        (h.invokeOnObject
          (iterateThroughHeapCallbackWrapper readings
            callback))
        order
        ⟨objects, [], ⟨tag, .start userData
          ((initial finishTime).run earlier)⟩⟩) :
    ∃ before,
      Worklist.Valid objectsOnly (h.invokeOnObject callback)
        before ⟨objects, [], ⟨tag, userData⟩⟩ ∧
      (h.iterateThroughHeap objects
          (iterateThroughHeapCallbackWrapper readings
            callback)
          ⟨tag, .start userData
            ((initial finishTime).run earlier)⟩
          order).unwrapped =
        h.iterateThroughHeap objects callback ⟨tag, userData⟩
          before ∧
      (before = order ∨
        ∃ o, order = before ++ [o] ∧
          (initial finishTime).shouldStopExecution
            (readings before.length) = true) ∧
      ∀ n,
        (∀ i, n ≤ i →
          (initial finishTime).shouldStopExecution
            (readings i) = true) →
        before.length ≤ n + 10 ^ 9 := by
  let c := (initial finishTime).run earlier
  have hSame (r : Reading) :
      c.shouldStopExecution r =
        (initial finishTime).shouldStopExecution r := by
    unfold shouldStopExecution
    rw [run_finishTime]
  have hCut :=
    (checks_iterateThroughHeapCallbackWrapper h readings
      callback).cut
      (wraps_iterateThroughHeapCallbackWrapper h readings
        callback)
      ((Bounded.init finishTime).run earlier)
      (c := c) rfl rfl hOrder
  simp only [hSame] at hCut
  rcases hCut with ⟨before, hValid, hData, hEnd, hSoon⟩
  exact ⟨before, hValid, hData,
    hEnd.imp_left (fun hWhole => hWhole.1), hSoon⟩

end Objects

end MemoryAgent
