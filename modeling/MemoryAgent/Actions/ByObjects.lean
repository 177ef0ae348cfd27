import MemoryAgent.Actions.Program

/-
  The steps of the queries, and the failures that decide the
  sizes of single objects and of listed objects.

  Key definitions include:
    * `Actions.AllComputed`
    * `RetainedSizeAndHeldObjectsAction.DecidesSize`

  Main results:
    * `RetainedSizeByObjectsAction.decides_executeOperation`
    * `RetainedSizeAndHeldObjectsAction.executeOperation_eq`
    * `RetainedSizeAndHeldObjectsAction.decides_executeOperation`
-/

------------------------------------------------------------
-- Steps
------------------------------------------------------------

namespace MemoryAgent

namespace Actions

open Calls

def AllComputed (numbers : List Number) : Prop :=
  ∀ n ∈ numbers, n = .computed

variable {D : Call → Prop}
variable {p q : Program jvmtiError}

theorem settles_followReferences
    {callback : Traversal}
    (hD : D (.FollowReferences callback)) :
    Settles D (· = 0) (followReferences callback) :=
  Settles.shouldStop (settles_sweep hD)

theorem settles_iterateThroughHeap
    {callback : Iteration}
    (hD : D (.IterateThroughHeap callback)) :
    Settles D (· = 0) (iterateThroughHeap callback) :=
  Settles.shouldStop (settles_sweep hD)

theorem settles_andThenUnlessStopped
    (hFirst : Settles D (· = 0) p)
    (hNext : Settles D (· = 0) q) :
    Settles D (· = 0) (andThenUnlessStopped p q) :=
  hFirst.andThen (Settles.shouldStop hNext)

theorem settles_getObjectsByTags
    (hObjects : D .GetObjectsWithTags)
    (hFirst : D .DeallocateObjects)
    (hSecond : D .DeallocateTags) :
    Settles D (· = 0) getObjectsByTags :=
  (settles_call hObjects).andThen
    ((settles_call hFirst).andThen (settles_call hSecond))

theorem settles_setNewTag
    {place : Place}
    {fresh : Bool}
    (hD : D (.SetTag place)) :
    Settles D (· = 0) (setNewTag place fresh) := by
  cases fresh with
  | false => exact settles_pure rfl
  | true => exact settles_call hD

theorem settles_walkHeapFromObjects
    (walks : List Bool)
    (hTag : ∀ place, D (.GetTag place))
    (hWalk : ∀ i, D (.FollowReferences (.spreadInfo i))) :
    Settles D (· = 0) (walkHeapFromObjects walks) := by
  apply Settles.forEach
  rintro ⟨walk, i⟩ _
  apply Settles.shouldStop
  apply (settles_call (hTag _)).andThen
  cases walk with
  | false => exact settles_pure rfl
  | true => exact settles_sweep (hWalk i)

variable {S : Call → Prop}

theorem sweeps_jvmti
    {c : Call} :
    Sweeps S (jvmti c) :=
  Sweeps.call (fun _ => sweeps_pure)

theorem sweeps_setNewTag
    {place : Place}
    {fresh : Bool} :
    Sweeps S (setNewTag place fresh) := by
  cases fresh with
  | false => exact sweeps_pure
  | true => exact sweeps_jvmti

theorem sweeps_andThenUnlessStopped
    (hFirst : Sweeps S p)
    (hNext : Sweeps S q) :
    Sweeps S (andThenUnlessStopped p q) :=
  hFirst.andThen (Sweeps.shouldStop hNext)

theorem sweeps_followReferences
    {callback : Traversal}
    (hS : S (.FollowReferences callback)) :
    Sweeps S (followReferences callback) :=
  Sweeps.shouldStop
    (Sweeps.sweep hS (fun _ _ => sweeps_pure))

theorem sweeps_iterateThroughHeap
    {callback : Iteration}
    (hS : S (.IterateThroughHeap callback)) :
    Sweeps S (iterateThroughHeap callback) :=
  Sweeps.shouldStop
    (Sweeps.sweep hS (fun _ _ => sweeps_pure))

theorem sweeps_getObjectsByTags :
    Sweeps S getObjectsByTags :=
  sweeps_jvmti.andThen (sweeps_jvmti.andThen sweeps_jvmti)

theorem sweeps_walkHeapFromObjects
    (walks : List Bool)
    (hS : ∀ i, S (.FollowReferences (.spreadInfo i))) :
    Sweeps S (walkHeapFromObjects walks) := by
  refine Sweeps.forEach _ ?_
  intro walk
  refine Sweeps.shouldStop ?_
  change Sweeps S
    (andThen (jvmti (.GetTag (.walked walk.2))) _)
  refine sweeps_jvmti.andThen ?_
  split
  · exact Sweeps.sweep (hS _) (fun _ _ => sweeps_pure)
  · exact sweeps_pure

------------------------------------------------------------
-- Sizes by Objects
------------------------------------------------------------

namespace RetainedSizeByObjectsAction

theorem settles_createTagForObject
    (place : Place)
    (fresh : Bool)
    (hGet : D (.GetTag place))
    (hSet : D (.SetTag place)) :
    Settles D (· = 0) (createTagForObject place fresh) := by
  exact (settles_call hGet).andThen (settles_setNewTag hSet)

theorem settles_goOn :
    Settles D (· = 0) goOn :=
  Settles.shouldStop (settles_pure rfl)

theorem settles_estimateObjectsSizes
    (objects : List ArgumentObject)
    (walks : List Bool)
    (hAll : ∀ c, D c) :
    Settles D (· = 0)
      (andThen (createTagsForObjects objects)
        (tagHeap objects walks)) := by
  have hCreate :
      Settles D (· = 0) (createTagsForObjects objects) :=
    Settles.forEach (fun object _ =>
      (settles_createTagForObject _ _ (hAll _)
        (hAll _)).andThen settles_goOn)
  have hRetag :
      Settles D (· = 0) (retagStartObjects objects) :=
    (Settles.forEach (fun object _ =>
      (settles_call (hAll _)).andThen settles_goOn)).andThen
        (Settles.forEach (fun object _ =>
          (settles_createTagForObject _ _ (hAll _)
            (hAll _)).andThen settles_goOn))
  refine hCreate.andThen ?_
  apply settles_andThenUnlessStopped
    (settles_followReferences (hAll _))
  apply settles_andThenUnlessStopped
    (settles_getObjectsByTags (hAll _) (hAll _) (hAll _))
  apply settles_andThenUnlessStopped hRetag
  apply settles_andThenUnlessStopped
    (settles_followReferences (hAll _))
  exact settles_walkHeapFromObjects walks
    (fun place => hAll (.GetTag place))
    (fun i => hAll (.FollowReferences (.spreadInfo i)))

theorem sweeps_estimateObjectsSizes
    (objects : List ArgumentObject)
    (walks : List Bool) :
    Sweeps (· ≠ .IterateThroughHeap .visitObject)
      (andThen (createTagsForObjects objects)
        (tagHeap objects walks)) := by
  have hTag :
      ∀ place fresh,
        Sweeps (· ≠ .IterateThroughHeap .visitObject)
          (andThen (createTagForObject place fresh)
            goOn) := by
    intro place fresh
    exact (sweeps_jvmti.andThen sweeps_setNewTag).andThen
      (Sweeps.shouldStop sweeps_pure)
  refine (Sweeps.forEach _ (fun _ => hTag _ _)).andThen ?_
  refine sweeps_andThenUnlessStopped
    (sweeps_followReferences Call.noConfusion) ?_
  refine sweeps_andThenUnlessStopped
    sweeps_getObjectsByTags ?_
  refine sweeps_andThenUnlessStopped ?_ ?_
  · exact (Sweeps.forEach _ (fun _ =>
      sweeps_jvmti.andThen
        (Sweeps.shouldStop sweeps_pure))).andThen
      (Sweeps.forEach _ (fun _ => hTag _ _))
  · exact sweeps_andThenUnlessStopped
      (sweeps_followReferences Call.noConfusion)
      (sweeps_walkHeapFromObjects walks
        (fun _ => Call.noConfusion))

theorem decides_executeOperation
    (objects : List ArgumentObject)
    (walks : List Bool)
    (hAll : ∀ c, D c) :
    Decides D AllComputed (executeOperation objects walks) := by
  apply Decides.afterLadder
    (settles_estimateObjectsSizes objects walks hAll)
  · apply Decides.shouldStop
    apply Decides.sweep (hAll _)
    · apply (settles_pure _).decides
      intro n hMem
      rcases List.mem_map.mp hMem with ⟨_, _, hEq⟩
      exact hEq.symm
    · intro error err done hMem
      change _ ∈ (quiet error
        (if isOk err then _ else _)).completed at hMem
      split at hMem
      · exact absurd hMem List.not_mem_nil
      · exact absurd hMem List.not_mem_nil
  · exact List.cons_ne_nil _ _
  · intro c hMem hEarly
    exact sweeps_estimateObjectsSizes objects walks _ c hEarly
      (List.mem_singleton.mp hMem)

end RetainedSizeByObjectsAction

------------------------------------------------------------
-- The Size of an Object
------------------------------------------------------------

namespace RetainedSizeAndHeldObjectsAction

/- The failures that leave both sizes as they are. -/
structure DecidesSize (D : Call → Prop) : Prop where
  setTag : ∀ place, D (.SetTag place)
  size : ∀ place, D (.GetObjectSize place)
  follow : ∀ callback, D (.FollowReferences callback)
  objects :
    ¬ D .GetObjectsWithTags ∧ ¬ D .DeallocateObjects ∧
      ¬ D .DeallocateTags

def readShallowSize
    (retainedSize : Number) : Program (List Number) :=
  .call (.GetObjectSize .start) fun err =>
    .ret [.ofCall err, retainedSize]

/- What follows the second traversal. -/
def finish
    (r : jvmtiError × Number) : Program (List Number) :=
  if isOk r.1 then
    .shouldStop fun stop =>
      if stop then
        readShallowSize r.2
      else
        getObjectsByTags >>= fun _ => readShallowSize r.2
  else
    readShallowSize r.2

def afterSecondTraversal
    (err : jvmtiError)
    (retainedSize : Number) : Program (List Number) :=
  if isOk err then
    .shouldStop fun stop =>
      if stop then
        finish (MEMORY_AGENT_INTERRUPTED_ERROR, retainedSize)
      else
        .call (.SetTag .held) fun err =>
          if isOk err then
            .call (.GetObjectSize .held) fun err =>
              if isOk err then
                finish (JVMTI_ERROR_NONE,
                  retainedSize.add (.ofCall err))
              else
                finish (err, .incomplete)
          else
            finish (err, .incomplete)
  else
    finish (err, retainedSize)

def afterFirstTraversal
    (err : jvmtiError) : Program (List Number) :=
  if isOk err then
    .shouldStop fun stop =>
      if stop then
        readShallowSize .unassigned
      else
        .shouldStop fun stop =>
          if stop then
            afterSecondTraversal
              MEMORY_AGENT_INTERRUPTED_ERROR .incomplete
          else
            .sweep (.FollowReferences .secondTraversal)
              fun err done =>
                afterSecondTraversal err (.ofSweep done)
  else
    readShallowSize .unassigned

theorem bind_finish
    (p : Program (jvmtiError × Number)) :
    ((do
        let (err, retainedSize) ← p
        if isOk err then
          if ← shouldStopExecution then
            pure (MEMORY_AGENT_INTERRUPTED_ERROR,
              retainedSize)
          else
            let err ← getObjectsByTags
            pure (err, retainedSize)
        else
          pure (err, retainedSize)) >>= fun r =>
      readShallowSize r.2) = p >>= finish := by
  rw [Prog.bind_assoc]
  congr 1
  funext r
  rcases r with ⟨err, retainedSize⟩
  unfold finish
  dsimp only
  split
  swap
  · rfl
  change Prog.shouldStop _ = Prog.shouldStop _
  congr 1
  funext stop
  cases stop with
  | true => rfl
  | false =>
      change (getObjectsByTags >>= _) >>= _ = _ >>= _
      rw [Prog.bind_assoc]
      rfl

/- After the second traversal the sizes are put together. -/
theorem afterSecondTraversal_eq
    (err : jvmtiError)
    (done : Bool) :
    (if isOk err then do
      if ← shouldStopExecution then
        pure (MEMORY_AGENT_INTERRUPTED_ERROR,
          Number.ofSweep done)
      else
        let err ← jvmti (.SetTag .held)
        if isOk err then
          let err ← jvmti (.GetObjectSize .held)
          if isOk err then
            pure (JVMTI_ERROR_NONE,
              (Number.ofSweep done).add (.ofCall err))
          else
            pure (err, .incomplete)
        else
          pure (err, .incomplete)
    else
      pure (err, Number.ofSweep done)) >>= finish =
      afterSecondTraversal err (.ofSweep done) := by
  unfold afterSecondTraversal
  split
  swap
  · rfl
  change Prog.shouldStop _ = Prog.shouldStop _
  congr 1
  funext stop
  cases stop with
  | true => rfl
  | false =>
      change Prog.call _ _ = Prog.call _ _
      congr 1
      funext err
      change (if isOk err then _ else _) >>= finish = _
      split
      swap
      · rfl
      change Prog.call _ _ = Prog.call _ _
      congr 1
      funext err
      change (if isOk err then _ else _) >>= finish = _
      split
      · rfl
      · rfl

theorem executeOperation_eq :
    executeOperation =
      traverseHeapForTheFirstTime >>=
        afterFirstTraversal := by
  have hOperation :
      executeOperation =
        estimateObjectSize >>= fun r =>
          readShallowSize r.2 := rfl
  rw [hOperation]
  unfold estimateObjectSize
  rw [Prog.bind_assoc]
  congr 1
  funext err
  unfold afterFirstTraversal
  split
  swap
  · rfl
  change Prog.shouldStop _ = Prog.shouldStop _
  congr 1
  funext stop
  cases stop with
  | true => rfl
  | false =>
      refine (bind_finish _).trans ?_
      unfold traverseHeapFromStartObjectAndCountRetainedSize
      rw [Prog.bind_assoc]
      change Prog.shouldStop _ = Prog.shouldStop _
      congr 1
      funext stop
      cases stop with
      | true => rfl
      | false =>
          change Prog.sweep _ _ = Prog.sweep _ _
          congr 1
          funext err done
          exact afterSecondTraversal_eq err done

theorem sweeps_finish
    (r : jvmtiError × Number) :
    Sweeps S (finish r) := by
  have hRead :
      ∀ retainedSize,
        Sweeps S (readShallowSize retainedSize) :=
    fun _ => Sweeps.call (fun _ => sweeps_pure)
  unfold finish
  split
  · exact Sweeps.shouldStop
      (sweeps_getObjectsByTags.bind (fun _ => hRead _))
  · exact hRead _

theorem sweeps_afterSecondTraversal
    (err : jvmtiError)
    (retainedSize : Number) :
    Sweeps S (afterSecondTraversal err retainedSize) := by
  unfold afterSecondTraversal
  split
  swap
  · exact sweeps_finish _
  refine Sweeps.shouldStop (Sweeps.call (fun err => ?_))
  split
  swap
  · exact sweeps_finish _
  refine Sweeps.call (fun err => ?_)
  split
  · exact sweeps_finish _
  · exact sweeps_finish _

/- A retained size that is not computed is returned so. -/
theorem not_allComputed_finish
    {r : jvmtiError × Number}
    (hNot : r.2 ≠ .computed)
    (error : Call → jvmtiError) :
    ¬ AllComputed (quiet error (finish r)).value := by
  have hRead :
      ¬ AllComputed
        (quiet error (readShallowSize r.2)).value := by
    intro hAll
    exact hNot (hAll r.2
      (List.mem_cons_of_mem _ List.mem_cons_self))
  unfold finish
  split
  · change ¬ AllComputed
      (quiet error
        (getObjectsByTags >>= fun _ =>
          readShallowSize r.2)).value
    rw [quiet_bind]
    exact hRead
  · exact hRead

theorem DecidesSize.decides_finish
    (hD : DecidesSize D) :
    Decides D AllComputed (finish (0, .computed)) := by
  refine Decides.shouldStop (Decides.afterIgnored ?_
    sweeps_getObjectsByTags (Settles.decides ?_))
  · intro c hMem
    rcases List.mem_cons.mp hMem with hEq | hMem
    · rw [hEq]
      exact hD.objects.1
    rcases List.mem_cons.mp hMem with hEq | hMem
    · rw [hEq]
      exact hD.objects.2.1
    · rw [List.mem_singleton.mp hMem]
      exact hD.objects.2.2
  · refine (settles_call (hD.size .start)).bind
      (settles_pure ?_) ?_
    · intro n hMem
      rcases List.mem_cons.mp hMem with hEq | hMem
      · rw [hEq]
        rfl
      · rw [List.mem_singleton.mp hMem]
    · intro err hErr error
      refine ⟨?_, List.nil_subset _⟩
      intro hAll
      have hHead := hAll _ List.mem_cons_self
      unfold Number.ofCall at hHead
      rw [if_neg (fun hTrue => hErr (isOk_iff.mp hTrue))]
        at hHead
      cases hHead

theorem DecidesSize.decides_afterSecondTraversal
    (hD : DecidesSize D) :
    Decides D AllComputed
      (afterSecondTraversal 0 .computed) := by
  have hIncomplete :
      ∀ err error,
        ¬ AllComputed
          (quiet error (finish (err, .incomplete))).value :=
    fun err error =>
      not_allComputed_finish Number.noConfusion error
  refine Decides.shouldStop ?_
  refine Decides.bind (settles_call (hD.setTag .held)) ?_
    (fun c _ hEarly => absurd hEarly List.not_mem_nil) ?_
  · refine Decides.bind (settles_call (hD.size .held))
      hD.decides_finish
      (fun c _ hEarly => absurd hEarly List.not_mem_nil) ?_
    intro err hErr error _
    change ¬ AllComputed
      (quiet error
        (if isOk err = true then _
        else finish (err, .incomplete))).value
    rw [if_neg (fun hTrue => hErr (isOk_iff.mp hTrue))]
    exact hIncomplete err error
  · intro err hErr error _
    change ¬ AllComputed
      (quiet error
        (if isOk err = true then _
        else finish (err, .incomplete))).value
    rw [if_neg (fun hTrue => hErr (isOk_iff.mp hTrue))]
    exact hIncomplete err error

theorem decides_executeOperation
    (hD : DecidesSize D) :
    Decides D AllComputed executeOperation := by
  rw [executeOperation_eq]
  have hFirst :
      Settles D (· = 0) traverseHeapForTheFirstTime :=
    settles_andThenUnlessStopped
      (settles_call (hD.setTag .start))
      (settles_followReferences (hD.follow _))
  have hSweeps :
      Sweeps (· = .FollowReferences .firstTraversal)
        traverseHeapForTheFirstTime :=
    sweeps_andThenUnlessStopped sweeps_jvmti
      (sweeps_followReferences rfl)
  have hMem :
      .FollowReferences .secondTraversal ∈
        (undisturbed (afterFirstTraversal 0)).completed :=
    List.mem_cons_self
  refine Decides.bind hFirst ?_ ?_ ?_
  · rw [hFirst.good]
    refine Decides.shouldStop (Decides.shouldStop ?_)
    exact Decides.sweep (hD.follow _)
      hD.decides_afterSecondTraversal
      (fun error err done hLate =>
        sweeps_afterSecondTraversal
          (S := fun _ => False) err _ error _ hLate)
  · intro c hLate hEarly
    rw [hFirst.good] at hLate
    have hFirstCall := hSweeps _ c hEarly
    have hSecond :
        Sweeps (· = .FollowReferences .secondTraversal)
          (afterFirstTraversal 0) :=
      Sweeps.shouldStop (Sweeps.shouldStop
        (Sweeps.sweep rfl
          (fun _ _ => sweeps_afterSecondTraversal _ _)))
    have hSecondCall := hSecond _ c hLate
    rw [hFirstCall] at hSecondCall
    cases hSecondCall
  · intro err hErr error hSubset
    rw [hFirst.good] at hSubset
    have hSwept := hSubset hMem
    unfold afterFirstTraversal at hSwept
    rw [if_neg (fun hTrue => hErr (isOk_iff.mp hTrue))]
      at hSwept
    exact absurd hSwept List.not_mem_nil

end RetainedSizeAndHeldObjectsAction

end Actions

end MemoryAgent
