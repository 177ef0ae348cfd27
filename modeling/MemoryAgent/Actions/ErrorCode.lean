import MemoryAgent.Actions.ByClasses
import MemoryAgent.Actions.DefinedRuns
import MemoryAgent.Actions.ViaDominatorTree

/-
  When the error code OK of a query means that its numbers
  are the computed ones.

  Key definitions include:
    * `Actions.Decisive`
    * `Actions.Complete`
    * `Actions.NeverPartial`

  Main results:
    * `Actions.decides_executeOperation`
    * `Actions.ok_iff`
-/

------------------------------------------------------------
-- Paths to the Closest GC Roots
------------------------------------------------------------

namespace MemoryAgent

namespace Actions

open Calls

variable {D S : Call → Prop}

namespace PathsToClosestGcRootsAction

/- What follows the traversal. -/
def search
    (rounds size : Nat)
    (done : Bool) : Program (List Number) :=
  .shouldStop fun stop =>
    if stop then
      .ret []
    else
      stopsDuringSearch rounds >>= fun stop =>
        if stop then
          .ret []
        else
          createResultObject done size

def traverse
    (rounds size : Nat) : Program (List Number) :=
  .shouldStop fun stop =>
    if stop then
      search rounds size false
    else
      .sweep (.FollowReferences .collectPaths)
        fun _ done => search rounds size done

theorem executeOperation_eq
    (classes : List Bool)
    (rounds size : Nat) :
    executeOperation classes rounds size =
      setTagsForReferences classes >>= fun _ =>
        jvmti (.SetTag .target) >>= fun _ =>
          traverse rounds size := by
  unfold executeOperation createTags
  rw [Prog.bind_assoc]
  congr 1
  funext _
  rw [Prog.bind_assoc]
  congr 1
  funext _
  change Prog.shouldStop _ = Prog.shouldStop _
  congr 1
  funext stop
  cases stop with
  | true => rfl
  | false => rfl

theorem quiet_stopsDuringSearch
    (error : Call → jvmtiError)
    (rounds : Nat) :
    quiet error (stopsDuringSearch rounds) =
      ⟨false, [], []⟩ := by
  induction rounds with
  | zero => rfl
  | succ rounds ih => exact ih

/- Without a stop only the packing is left. -/
theorem quiet_search
    (error : Call → jvmtiError)
    (rounds size : Nat)
    (done : Bool) :
    quiet error (search rounds size done) =
      quiet error (createResultObject done size) := by
  change quiet error
    (stopsDuringSearch rounds >>= fun stop =>
      if stop then .ret []
      else createResultObject done size) = _
  rw [quiet_bind, quiet_stopsDuringSearch]
  rfl

theorem sweeps_search
    (rounds size : Nat)
    (done : Bool) :
    Sweeps S (search rounds size done) := by
  have hResult :
      Sweeps S (createResultObject done size) := by
    refine sweeps_jvmti.bind (fun err => ?_)
    split
    swap
    · exact sweeps_pure
    refine sweeps_jvmti.bind (fun err => ?_)
    split
    · exact sweeps_jvmti.bind (fun _ => sweeps_pure)
    · exact sweeps_pure
  intro error c hMem
  rw [quiet_search] at hMem
  exact hResult error c hMem

theorem allComputed_search
    (error : Call → jvmtiError)
    (rounds size : Nat) :
    AllComputed
      (quiet error (search rounds size true)).value := by
  have hAll :
      AllComputed
        (List.replicate size (Number.ofSweep true)) :=
    fun n hMem => List.eq_of_mem_replicate hMem
  rw [quiet_search]
  change AllComputed
    (quiet error
      (if isOk (error .GetObjectsWithTags) then _
      else .ret [])).value
  split
  swap
  · exact fun n hMem => absurd hMem List.not_mem_nil
  change AllComputed
    (quiet error
      (if isOk (error .DeallocateObjects) then _
      else .ret _)).value
  split
  · exact hAll
  · exact hAll

theorem calls_tagReferences
    (references : List (Bool × Nat))
    {c : Call}
    (hMem : c ∈ (undisturbed (tagReferences references)).calls) :
    ∃ j, c = .SetTag (.referenceClass j) := by
  induction references with
  | nil => exact absurd hMem List.not_mem_nil
  | cons head rest ih =>
      rcases head with ⟨isReference, j⟩
      cases isReference with
      | false => exact ih hMem
      | true =>
          rcases List.mem_cons.mp hMem with hEq | hRest
          · exact ⟨j, hEq⟩
          · exact ih hRest

theorem sweeps_setTagsForReferences
    (classes : List Bool) :
    Sweeps S (setTagsForReferences classes) := by
  have hTags :
      ∀ references : List (Bool × Nat),
        Sweeps S (tagReferences references) := by
    intro references
    induction references with
    | nil => exact sweeps_pure
    | cons head rest ih =>
        rcases head with ⟨isReference, j⟩
        cases isReference with
        | false => exact ih
        | true => exact sweeps_jvmti.bind (fun _ => ih)
  refine sweeps_jvmti.bind (fun err => ?_)
  split
  · exact hTags _
  · exact sweeps_pure.undefined

theorem decides_executeOperation
    (classes : List Bool)
    (rounds size : Nat) :
    Decides (· = .FollowReferences .collectPaths) AllComputed
      (executeOperation classes rounds size) := by
  rw [executeOperation_eq]
  refine Decides.afterIgnored ?_
    (sweeps_setTagsForReferences classes)
    (Decides.afterIgnored ?_ sweeps_jvmti ?_)
  · intro c hMem hD
    rw [hD] at hMem
    rcases List.mem_cons.mp hMem with hEq | hMem
    · cases hEq
    · rcases calls_tagReferences _ hMem with ⟨j, hEq⟩
      cases hEq
  · intro c hMem hD
    rw [List.mem_singleton.mp hMem] at hD
    cases hD
  · refine Decides.shouldStop (Decides.sweep rfl ?_ ?_)
    · refine Decides.ofIgnored ?_ (sweeps_search _ _ _)
        (fun error => allComputed_search error rounds size)
      intro c hMem hD
      unfold undisturbed at hMem
      rw [quiet_search, hD] at hMem
      rcases List.mem_cons.mp hMem with hEq | hMem
      · cases hEq
      rcases List.mem_cons.mp hMem with hEq | hMem
      · cases hEq
      · cases List.mem_singleton.mp hMem
    · intro error err done
      exact sweeps_search (S := fun _ => False) rounds size
        done error _

end PathsToClosestGcRootsAction

------------------------------------------------------------
-- The Error Code
------------------------------------------------------------

/- The call asks for the signature of a filler class. -/
def isFillerSignature
    (classes : List (List LoadedClass)) : Call → Bool
| .GetClassSignature i j =>
    (classes[i]?.bind (fun loaded => loaded[j]?)).any
      (fun loaded => loaded.filler)
| _ => false

/-
  The calls whose failure is one that the numbers or the
  sweeps of the action depend on.
-/
def Decisive : Action → Call → Prop
| .size, c =>
    c ≠ .GetObjectsWithTags ∧ c ≠ .DeallocateObjects ∧
      c ≠ .DeallocateTags
| .getShallowSizeByClasses classes, c =>
    isFillerSignature classes c = false
| .getRetainedSizeByClasses classes _, c =>
    isFillerSignature classes c = false
| .getShallowAndRetainedSizeByClasses classes _, c =>
    isFillerSignature classes c = false
| .getShallowAndRetainedSizesByObjects _, c =>
    isUnchecked c = false
| .getSortedShallowAndRetainedSizesByClass _ _ _, c =>
    isUnchecked c = false
| .findPathsToClosestGcRoots _ _ _, c =>
    c = .FollowReferences .collectPaths
| .estimateRetainedSize _ _, _ => True

theorem decidesClasses_zipIdx
    (classes : List (List LoadedClass)) :
    DecidesClasses
      (fun c => isFillerSignature classes c = false)
      classes.zipIdx := by
  refine ⟨fun _ => rfl, fun _ => rfl, fun _ => rfl, ?_⟩
  intro l hMem loaded hLoaded
  have hL := List.mem_zipIdx_iff_getElem?.mp hMem
  have hJ := List.mem_zipIdx_iff_getElem?.mp hLoaded
  simp [isFillerSignature, hL, hJ]

theorem decides_executeOperation
    (a : Action) :
    Decides (Decisive a) AllComputed (executeOperation a) := by
  cases a with
  | size =>
      apply RetainedSizeAndHeldObjectsAction.decides_executeOperation
      exact ⟨fun _ => by simp [Decisive],
        fun _ => by simp [Decisive],
        fun _ => by simp [Decisive], by simp [Decisive]⟩
  | estimateRetainedSize objects walks =>
      exact RetainedSizeByObjectsAction.decides_executeOperation
        objects walks (fun _ => trivial)
  | getShallowSizeByClasses classes =>
      exact ShallowSizeByClassesAction.decides_executeOperation
        classes (decidesClasses_zipIdx classes) rfl
  | getRetainedSizeByClasses classes walks =>
      exact decides_getRetainedSizeByClasses
        (decidesClasses_zipIdx classes) (fun _ => rfl)
        (fun _ => rfl) ⟨rfl, rfl, rfl⟩
  | getShallowAndRetainedSizeByClasses classes walks =>
      exact decides_getShallowAndRetainedSizeByClasses
        (decidesClasses_zipIdx classes) (fun _ => rfl)
        (fun _ => rfl) ⟨rfl, rfl, rfl⟩
  | getShallowAndRetainedSizesByObjects fresh =>
      exact
        RetainedSizesViaDominatorTreeAction.decides_executeOperation
          fresh ⟨fun _ hOther => hOther,
            fun _ hTrue => by simp [Decisive, hTrue]⟩
  | getSortedShallowAndRetainedSizesByClass
      fresh comparisons size =>
      exact
        RetainedSizesByClassViaDominatorTreeAction.decides_executeOperation
          fresh comparisons size ⟨fun _ hOther => hOther,
            fun _ hTrue => by simp [Decisive, hTrue]⟩
  | findPathsToClosestGcRoots classes rounds size =>
      exact PathsToClosestGcRootsAction.decides_executeOperation
        classes rounds size

/- The sweeps of the operation are complete, the numbers too. -/
def Complete
    (a : Action)
    (r : ReturnValue) : Prop :=
  (undisturbed (executeOperation a)).completed ⊆
      r.completed ∧
    AllComputed r.numbers

theorem getErrorCode_ok_iff
    (w : World Call)
    (time : Nat) :
    getErrorCode w time = .OK ↔ w.stops time = false := by
  unfold getErrorCode World.stops
  cases w.cancelled time with
  | true => simp
  | false => simp

/- A run that is not stopped is the quiet one. -/
theorem runAction_of_not_stops
    (a : Action)
    (w : World Call)
    (hEnd : w.stops (endTime a w) = false) :
    (runAction a w).numbers =
        (quiet w.error (executeOperation a)).value ∧
      (runAction a w).completed =
        (quiet w.error (executeOperation a)).completed := by
  rcases run_eq_quiet w _ 0 hEnd with ⟨hValue, hCompleted⟩
  rw [quiet_bind] at hValue hCompleted
  refine ⟨hValue, ?_⟩
  unfold runAction operationRun
  rw [hCompleted]
  exact List.append_nil _

/-
  The run is defined, and its code OK stands for complete
  sweeps and computed numbers.
-/
def NeverPartial
    (a : Action)
    (w : World Call) : Prop :=
  (operationRun a w).defined = true ∧
    ((runAction a w).errorCode = .OK →
      Complete a (runAction a w))

/-
  This is so if and only if none of the calls failed whose
  answers the run used unchecked, and the run was stopped,
  so that the code is another one, or no decisive call
  failed.
-/
theorem ok_iff
    (a : Action)
    (w : World Call) :
    NeverPartial a w ↔
      (∀ c ∈ (operationRun a w).calls,
        isUnchecked c = true → w.error c = 0) ∧
      (w.stops (endTime a w) = true ∨
        ∀ c ∈ (undisturbed (executeOperation a)).calls,
          Decisive a c → w.error c = 0) := by
  unfold NeverPartial
  rw [operationRun_defined_iff]
  apply and_congr_right
  intro _
  have hCode := getErrorCode_ok_iff w (endTime a w)
  cases hEnd : w.stops (endTime a w) with
  | true =>
      rw [hEnd] at hCode
      refine iff_of_true (fun hOk => ?_) (Or.inl rfl)
      exact absurd (hCode.mp hOk) Bool.noConfusion
  | false =>
      rw [hEnd] at hCode
      rcases runAction_of_not_stops a w hEnd with
        ⟨hNumbers, hCompleted⟩
      have hIff := decides_executeOperation a w.error
      unfold Delivers at hIff
      unfold Complete
      rw [hNumbers, hCompleted, hIff]
      constructor
      · exact fun hOk => Or.inr (hOk (hCode.mpr rfl))
      · rintro (hTrue | hOk) _
        · cases hTrue
        · exact hOk

/- Nothing stops, and one call fails. -/
def failing (call : Call) : World Call where
  error := fun c => if c = call then 110 else 0
  aborts := fun _ => false
  cancelled := fun _ => false
  timedOut := fun _ => false
  stays := fun _ hStops => hStops

/- The retained size is returned without having been set. -/
theorem not_ok :
    ¬ ∀ a w, NeverPartial a w := by
  intro hAll
  have hNumbers :=
    ((hAll .size (failing (.SetTag .start))).2 rfl).2
  have hMem :
      .unassigned ∈
        (runAction .size
          (failing (.SetTag .start))).numbers := by
    decide +kernel
  cases hNumbers _ hMem

end Actions

end MemoryAgent
