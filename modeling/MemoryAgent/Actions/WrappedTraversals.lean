import MemoryAgent.Actions.CallbackWrappers
import MemoryAgent.Actions.ErrorCode
import MemoryAgent.Actions.Executions

/-
  Traversals of an action between its other checks: each one
  reads the clock and the file at its own checks, and goes
  on with the counters that the earlier ones left.

  Key definitions include:
    * `Actions.Traverses`
    * `Actions.Walk`
    * `Actions.meaning`
    * `Actions.worldOf`

  Main results:
    * `Actions.Traverses.whole`
    * `Actions.Traverses.cut`
    * `Actions.quiet_of_ok`
-/

------------------------------------------------------------
-- Wrapped Traversals
------------------------------------------------------------

namespace MemoryAgent

namespace Actions

open Calls

variable {O U : Type}
variable [DecidableEq O]

/-
  A traversal with a wrapped callback, from the reading with
  the number `n` on.  It is done if no check says stop.
-/
def Traverses
    (h : Heap O)
    (readings : Nat → CancellationChecker.Reading)
    (initialObject : Option O)
    (callback : HeapReferenceCallback jlong U)
    (n : Nat)
    (s : Tagged O jlong (CallbackWrapperData U))
    (done : Bool)
    (n' : Nat)
    (s' : Tagged O jlong (CallbackWrapperData U)) : Prop :=
  let fromNow := fun i => readings (n + i)
  let wrapper :=
    followReferencesCallbackWrapper fromNow callback
  ∃ reports,
    h.FollowReferences initialObject wrapper s reports ∧
      (done = true ↔
        Worklist.GoesOn h.graph (h.invoke wrapper)
          (fun data => data.user.halts fromNow) reports
          (h.traversal initialObject s) reports.length) ∧
      n' = n + reports.length ∧
      s' = h.followReferences initialObject wrapper s reports

variable {h : Heap O}
variable {readings : Nat → CancellationChecker.Reading}
variable {initialObject : Option O}
variable {callback : HeapReferenceCallback jlong U}
variable {n n' : Nat}
variable {s s' : Tagged O jlong (CallbackWrapperData U)}
variable {done : Bool}

theorem Traverses.le
    (hTraverses :
      Traverses h readings initialObject callback n s done n'
        s') :
    n ≤ n' := by
  rcases hTraverses with ⟨reports, _, _, hEnd, _⟩
  rw [hEnd]
  exact Nat.le_add_right n reports.length

/- If no check before its end says stop, it is a whole one. -/
theorem Traverses.whole
    (hTraverses :
      Traverses h readings initialObject callback n s done n'
        s')
    (hCalls : s.user.calls = 0)
    (hGoes :
      ∀ i < n',
        s.user.cancellationChecker.shouldStopExecution
          (readings i) = false) :
    done = true ∧
      ∃ reports,
        h.FollowReferences initialObject callback s.unwrapped
            reports ∧
          s'.unwrapped =
            h.followReferences initialObject callback
              s.unwrapped reports := by
  rcases hTraverses with
    ⟨reports, hReports, hDone, hEnd, hFinal⟩
  rcases followReferences_whole hReports hCalls
      (fun i hI => hGoes (n + i) (by omega)) with
    ⟨hWhole, hSame, hAll⟩
  rw [hFinal]
  exact ⟨hDone.mpr hAll, reports, hWhole, hSame⟩

/- Cut short or not, it is a beginning of one without checks. -/
theorem Traverses.cut
    (hTraverses :
      Traverses h readings initialObject callback n s done n'
        s') :
    ∃ before,
      Worklist.Valid h.graph (h.invoke callback) before
        (h.traversal initialObject s.unwrapped) ∧
        s'.unwrapped =
          h.followReferences initialObject callback
            s.unwrapped before := by
  rcases hTraverses with ⟨reports, hReports, _, _, hFinal⟩
  rcases (wraps_followReferencesCallbackWrapper h
      (fun i => readings (n + i)) callback).cut hReports.1.1
    with ⟨before, _, hInner, hView, _⟩
  rw [Heap.traversal_unwrapped] at hInner hView
  rw [hFinal]
  exact ⟨before, hInner, hView⟩

/- The deadline stays, whatever the counters do. -/
theorem Traverses.finishTime_eq
    (hTraverses :
      Traverses h readings initialObject callback n s done n'
        s')
    (hCalls : s.user.calls = 0) :
    s'.user.cancellationChecker.finishTime =
      s.user.cancellationChecker.finishTime := by
  rcases hTraverses with ⟨reports, hReports, _, _, hFinal⟩
  have hData := h.traversal_data initialObject s
  have hChecker :=
    ((checks_followReferencesCallbackWrapper h
      (fun i => readings (n + i)) callback).replay
      (c := s.user.cancellationChecker)
      (congrArg (fun d => d.user.2) hData)
      ((congrArg (fun d => d.user.3) hData).trans hCalls)
      hReports.1.1).1
  rw [hFinal]
  unfold Heap.followReferences
  rw [hChecker, CancellationChecker.afterCalls_finishTime]

------------------------------------------------------------
-- Actions with Their Variables
------------------------------------------------------------

/- The tags, the variables and the counters of the checker. -/
structure Variables (N D : Type) where
  values : Tagged N jlong D
  cancellationChecker : CancellationChecker

/-
  A traversal of an action: its callback, what the user data
  are when it begins and what they are good for at its end.
-/
structure Walk (N D : Type) where
  U : Type
  initialObject : Option N
  callback : HeapReferenceCallback jlong U
  load : D → U
  store : D → U → D

variable {N D α : Type}
variable [DecidableEq N]

def Sweeps
    (h : Heap N)
    (readings : Nat → CancellationChecker.Reading)
    (walks : Call → Option (Walk N D))
    (c : Call)
    (n : Nat)
    (s : Variables N D)
    (err : jvmtiError)
    (done : Bool)
    (n' : Nat)
    (s' : Variables N D) : Prop :=
  err = JVMTI_ERROR_NONE ∧
    ∃ walk, walks c = some walk ∧
      ∃ final,
        Traverses h readings walk.initialObject walk.callback
            n
            ⟨s.values.tag, .start (walk.load s.values.user)
              s.cancellationChecker⟩
            done n' final ∧
          s' =
            ⟨⟨final.tag, walk.store s.values.user
                final.user.userData⟩,
              final.user.cancellationChecker⟩

theorem Sweeps.le
    {h : Heap N}
    {readings : Nat → CancellationChecker.Reading}
    {walks : Call → Option (Walk N D)}
    {c : Call}
    {n n' : Nat}
    {s s' : Variables N D}
    {err : jvmtiError}
    {done : Bool}
    (hSweep : Sweeps h readings walks c n s err done n' s') :
    n ≤ n' := by
  rcases hSweep with ⟨_, _, _, _, hTraverses, _⟩
  exact hTraverses.le

/- The callback's own traversal; the counters are left open. -/
def Sweeps.Whole
    (h : Heap N)
    (walks : Call → Option (Walk N D))
    (c : Call)
    (s : Variables N D)
    (err : jvmtiError)
    (s' : Variables N D) : Prop :=
  err = JVMTI_ERROR_NONE ∧
    ∃ walk, walks c = some walk ∧
      ∃ reports,
        h.FollowReferences walk.initialObject walk.callback
            ⟨s.values.tag, walk.load s.values.user⟩
            reports ∧
          let final :=
            h.followReferences walk.initialObject
              walk.callback
              ⟨s.values.tag, walk.load s.values.user⟩ reports
          s'.values =
            ⟨final.tag, walk.store s.values.user final.user⟩

/- Calls other than traversals leave the counters alone. -/
def Performs
    (effect :
      Call → Tagged N jlong D → Tagged N jlong D → Prop)
    (c : Call)
    (s : Variables N D)
    (err : jvmtiError)
    (s' : Variables N D) : Prop :=
  err = JVMTI_ERROR_NONE ∧ effect c s.values s'.values ∧
    s'.cancellationChecker = s.cancellationChecker

def meaning
    (h : Heap N)
    (readings : Nat → CancellationChecker.Reading)
    (effect :
      Call → Tagged N jlong D → Tagged N jlong D → Prop)
    (walks : Call → Option (Walk N D)) :
    Meaning Call (Variables N D) where
  call := Performs effect
  sweep := Sweeps h readings walks
  sweep_le := Sweeps.le

section Whole

variable {h : Heap N}
variable {readings : Nat → CancellationChecker.Reading}
variable {walks : Call → Option (Walk N D)}
variable {c : Call}
variable {n n' : Nat}
variable {s s' : Variables N D}
variable {err : jvmtiError}
variable {done : Bool}

theorem Sweeps.finishTime_eq
    (hSweep : Sweeps h readings walks c n s err done n' s') :
    s'.cancellationChecker.finishTime =
      s.cancellationChecker.finishTime := by
  rcases hSweep with ⟨_, walk, _, final, hTraverses, hEq⟩
  rw [hEq]
  exact hTraverses.finishTime_eq rfl

theorem Sweeps.whole
    (hSweep : Sweeps h readings walks c n s err done n' s')
    (hGoes :
      ∀ i < n',
        s.cancellationChecker.shouldStopExecution
          (readings i) = false) :
    done = isOk err ∧
      Sweeps.Whole h walks c s err s' := by
  rcases hSweep with
    ⟨hErr, walk, hWalk, final, hTraverses, hEq⟩
  rcases hTraverses.whole rfl hGoes with
    ⟨hDone, reports, hWhole, hSame⟩
  refine ⟨?_, hErr, walk, hWalk, reports, hWhole, ?_⟩
  · rw [hDone, hErr]
    rfl
  · rw [hEq]
    exact congrArg
      (fun data : Tagged N jlong walk.U =>
        Tagged.mk data.tag
          (walk.store s.values.user data.user))
      hSame

end Whole

------------------------------------------------------------
-- The Clock and the File
------------------------------------------------------------

/- The clock and the file as a world without failing calls. -/
def worldOf
    (finishTime : Int)
    (readings : Nat → CancellationChecker.Reading)
    (hStays :
      ∀ n,
        ((readings n).fileExists ||
            decide (finishTime < (readings n).now)) = true →
          ((readings (n + 1)).fileExists ||
            decide (finishTime < (readings (n + 1)).now)) =
              true) :
    World Call where
  error := fun _ => JVMTI_ERROR_NONE
  aborts := fun _ => true
  cancelled := fun n => (readings n).fileExists
  timedOut := fun n => decide (finishTime < (readings n).now)
  stays := hStays

/- No check before the end of such a run says stop. -/
theorem goes_of_not_stops
    {w : World Call}
    {finishTime : Int}
    {c : CancellationChecker}
    (hReadings :
      ∀ i,
        w.stops i =
          (CancellationChecker.initial
            finishTime).shouldStopExecution (readings i))
    (hDeadline : c.finishTime = finishTime)
    (hEnd : w.stops n = false) :
    ∀ i < n, c.shouldStopExecution (readings i) = false := by
  intro i hI
  have hNow : w.stops i = false :=
    stops_mono w.stays hI.le hEnd
  rw [hReadings i] at hNow
  unfold CancellationChecker.shouldStopExecution at hNow ⊢
  rw [hDeadline]
  exact hNow

/-
  A run that ends when it need not stop is a quiet one, with
  the callbacks' own traversals.
-/
theorem quiet_of_ok
    {h : Heap N}
    {readings : Nat → CancellationChecker.Reading}
    {effect :
      Call → Tagged N jlong D → Tagged N jlong D → Prop}
    {walks : Call → Option (Walk N D)}
    {w : World Call}
    {finishTime : Int}
    {p : Program α}
    {n : Nat}
    {a : α}
    {s t : Variables N D}
    (hReadings :
      ∀ i,
        w.stops i =
          (CancellationChecker.initial
            finishTime).shouldStopExecution (readings i))
    (hDeadline :
      s.cancellationChecker.finishTime = finishTime)
    (hRun :
      Executes (meaning h readings effect walks) w.stops p 0
        s a n t)
    (hOk : getErrorCode w n = .OK) :
    Quiet (Performs effect) (Sweeps.Whole h walks) p s a t :=
  Executes.quiet
    (m := meaning h readings effect walks)
    (fun s => s.cancellationChecker.finishTime = finishTime)
    w.stays
    (fun hCall hInv => by rw [hCall.2.2, hInv])
    (fun hSweep hInv =>
      (Sweeps.finishTime_eq hSweep).trans hInv)
    (fun hSweep hInv hNow =>
      Sweeps.whole hSweep
        (goes_of_not_stops hReadings hInv hNow))
    hDeadline hRun ((getErrorCode_ok_iff w n).mp hOk)

end Actions

end MemoryAgent
