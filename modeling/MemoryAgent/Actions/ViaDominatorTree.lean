import MemoryAgent.Actions.ByObjects

/-
  The failures that decide the sizes by way of a dominator
  tree, with any program after the calculation.

  Key definitions include:
    * `RetainedSizesAction.fromSecondTraversal`
    * `RetainedSizesByClassViaDominatorTreeAction.sortAndRead`

  Main results:
    * `RetainedSizesAction.decides_calculateRetainedSizes`
    * `RetainedSizesViaDominatorTreeAction.decides_executeOperation`
-/

------------------------------------------------------------
-- Sizes by Way of a Dominator Tree
------------------------------------------------------------

namespace MemoryAgent

namespace Actions

open Calls

variable {D S : Call → Prop}

namespace RetainedSizesAction

theorem settles_beforeSecondTraversal
    (fresh : List Bool)
    (hGet : ∀ i, D (.GetTag (.object i)))
    (hSet : ∀ place, D (.SetTag place))
    (hSize : ∀ place, D (.GetObjectSize place))
    (hFollow : ∀ callback, D (.FollowReferences callback)) :
    Settles D (· = 0)
      (andThen (tagsForTraversals fresh)
        (followReferences .firstTraversal)) := by
  have hInit :
      Settles D (· = 0) (initAndSetTagsForObjects fresh) := by
    apply Settles.forEach
    rintro ⟨isFresh, i⟩ _
    apply (settles_call (hGet i)).andThen
    cases isFresh with
    | false => exact settles_pure rfl
    | true =>
        exact (settles_call (hSet _)).andThen
          (settles_call (hSize _))
  exact (hInit.andThen (settles_call (hSet _))).andThen
    (settles_followReferences (hFollow _))

theorem sweeps_beforeSecondTraversal
    (fresh : List Bool) :
    Sweeps (· = .FollowReferences .firstTraversal)
      (andThen (tagsForTraversals fresh)
        (followReferences .firstTraversal)) := by
  refine Sweeps.andThen (Sweeps.andThen ?_ sweeps_jvmti)
    (sweeps_followReferences rfl)
  refine Sweeps.forEach _ (fun object => ?_)
  refine sweeps_jvmti.andThen ?_
  split
  · exact sweeps_jvmti.andThen sweeps_jvmti
  · exact sweeps_pure

theorem sweeps_getIndex
    (place : Place) :
    Sweeps S (getIndex place) := by
  refine sweeps_jvmti.bind (fun err => ?_)
  split
  · exact sweeps_pure
  · exact sweeps_pure.undefined

theorem sweeps_readSizes
    (retainedSize : Number)
    (is : List Nat) :
    Sweeps S (readSizes retainedSize is) := by
  induction is with
  | nil => exact sweeps_pure
  | cons i rest ih =>
      exact (sweeps_getIndex _).bind
        (fun _ => ih.bind (fun _ => sweeps_pure))

theorem calls_readSizes
    (retainedSize : Number)
    (is : List Nat)
    {c : Call}
    (hMem :
      c ∈ (undisturbed (readSizes retainedSize is)).calls) :
    isUnchecked c = true := by
  induction is with
  | nil => exact absurd hMem List.not_mem_nil
  | cons i rest ih =>
      rcases List.mem_cons.mp hMem with hEq | hRest
      · rw [hEq]
        rfl
      · have hRest :
            c ∈ (undisturbed
              (readSizes retainedSize rest >>= _)).calls :=
          hRest
        unfold undisturbed at hRest
        rw [quiet_bind] at hRest
        rcases List.mem_append.mp hRest with hHere | hNone
        · exact ih hHere
        · exact absurd hNone List.not_mem_nil

/- Whatever fails, the sizes are computed ones. -/
theorem allComputed_readSizes
    (error : Call → jvmtiError)
    (is : List Nat) :
    AllComputed (quiet error (readSizes .computed is)).value := by
  induction is with
  | nil => exact fun n hMem => absurd hMem List.not_mem_nil
  | cons i rest ih =>
      change AllComputed
        (quiet error
          (getIndex (.result i) >>= fun _ =>
            readSizes .computed rest >>= _)).value
      rw [quiet_bind, quiet_bind]
      intro n hMem
      rcases List.mem_cons.mp hMem with hEq | hMem
      · exact hEq
      rcases List.mem_cons.mp hMem with hEq | hMem
      · exact hEq
      · exact ih n hMem

/-
  All calls matter but those after whose failure the
  behaviour is undefined.
-/
structure DecidesTree (D : Call → Prop) : Prop where
  other : ∀ c, isUnchecked c = false → D c
  unchecked : ∀ c, isUnchecked c = true → ¬ D c

theorem DecidesTree.readSizes
    (hD : DecidesTree D)
    (is : List Nat) :
    Decides D AllComputed (readSizes .computed is) :=
  Decides.ofIgnored
    (fun c hMem => hD.unchecked c (calls_readSizes _ _ hMem))
    (sweeps_readSizes _ _)
    (fun error => allComputed_readSizes error is)

section Continuation

variable {fresh : List Bool}
variable {next : jvmtiError × Number → Program (List Number)}

/- What follows when the first traversal succeeds. -/
def fromSecondTraversal
    (next : jvmtiError × Number → Program (List Number))
    (err : jvmtiError) : Program (List Number) :=
  .shouldStop fun stop =>
    if stop then
      next (err, .unassigned)
    else
      FollowReferences .secondTraversal >>= fun r =>
        if isOk r.1 then
          .shouldStop fun stop =>
            if stop then
              next (r.1, .unassigned)
            else
              next (r.1, .ofSweep r.2)
        else
          next (r.1, .unassigned)

def afterFirstTraversal
    (next : jvmtiError × Number → Program (List Number))
    (err : jvmtiError) : Program (List Number) :=
  if isOk err then
    fromSecondTraversal next err
  else
    next (err, .unassigned)

theorem calculateRetainedSizes_bind :
    calculateRetainedSizes fresh >>= next =
      andThen (tagsForTraversals fresh)
          (followReferences .firstTraversal) >>=
        afterFirstTraversal next := by
  unfold calculateRetainedSizes
  rw [Prog.bind_assoc]
  congr 1
  funext err
  unfold afterFirstTraversal
  split
  swap
  · rfl
  change Prog.shouldStop _ = Prog.shouldStop _
  congr 1
  funext stop
  cases stop with
  | true => rfl
  | false =>
      change (FollowReferences _ >>= _) >>= _ = _ >>= _
      rw [Prog.bind_assoc]
      congr 1
      funext r
      rcases r with ⟨err, done⟩
      dsimp only
      split
      swap
      · rfl
      change Prog.shouldStop _ = Prog.shouldStop _
      congr 1
      funext stop
      cases stop with
      | true => rfl
      | false => rfl

variable
  (hSweeps : ∀ r, Sweeps (fun _ => False) (next r))
include hSweeps

theorem sweeps_fromSecondTraversal
    (err : jvmtiError) :
    Sweeps (· = .FollowReferences .secondTraversal)
      (fromSecondTraversal next err) := by
  have hNone :
      ∀ r, Sweeps (· = .FollowReferences .secondTraversal)
        (next r) :=
    fun r error c hMem => (hSweeps r error c hMem).elim
  refine Sweeps.shouldStop (Sweeps.bind ?_ (fun r => ?_))
  · exact Sweeps.shouldStop
      (Sweeps.sweep rfl (fun _ _ => sweeps_pure))
  · split
    · exact Sweeps.shouldStop (hNone _)
    · exact hNone _

theorem decides_fromSecondTraversal
    (hFollow : D (.FollowReferences .secondTraversal))
    (hNext : Decides D AllComputed (next (0, .computed))) :
    Decides D AllComputed (fromSecondTraversal next 0) := by
  refine Decides.shouldStop (Decides.shouldStop ?_)
  refine Decides.sweep hFollow hNext ?_
  intro error err done hMem
  change _ ∈ (quiet error
    (if isOk err then _ else _)).completed at hMem
  split at hMem
  · exact hSweeps _ error _ hMem
  · exact hSweeps _ error _ hMem

omit hSweeps in
/- The second traversal is made in the undisturbed run. -/
theorem mem_fromSecondTraversal :
    .FollowReferences .secondTraversal ∈
      (undisturbed (fromSecondTraversal next 0)).completed :=
  List.mem_cons_self

theorem decides_calculateRetainedSizes
    {fresh : List Bool}
    (hGet : ∀ i, D (.GetTag (.object i)))
    (hSet : ∀ place, D (.SetTag place))
    (hSize : ∀ place, D (.GetObjectSize place))
    (hFollow : ∀ callback, D (.FollowReferences callback))
    (hNext : Decides D AllComputed (next (0, .computed))) :
    Decides D AllComputed
        (calculateRetainedSizes fresh >>= next) ∧
      .FollowReferences .secondTraversal ∈
        (undisturbed
          (calculateRetainedSizes fresh >>= next)).completed := by
  rw [calculateRetainedSizes_bind]
  have hLadder :=
    settles_beforeSecondTraversal fresh hGet hSet hSize
      hFollow
  have hValue :
      afterFirstTraversal next
          (undisturbed
            (andThen (tagsForTraversals fresh)
              (followReferences .firstTraversal))).value =
        fromSecondTraversal next 0 := by
    rw [hLadder.good]
    rfl
  refine ⟨Decides.bind hLadder ?_ ?_ ?_, ?_⟩
  · rw [hValue]
    exact decides_fromSecondTraversal hSweeps (hFollow _)
      hNext
  · intro c hLate hEarly
    rw [hValue] at hLate
    have hFirst :=
      sweeps_beforeSecondTraversal fresh _ c hEarly
    have hSecond :=
      sweeps_fromSecondTraversal hSweeps 0 _ c hLate
    rw [hFirst] at hSecond
    cases hSecond
  · intro err hErr error hSubset
    rw [hValue] at hSubset
    have hSwept := hSubset mem_fromSecondTraversal
    unfold afterFirstTraversal at hSwept
    rw [if_neg (fun hTrue => hErr (isOk_iff.mp hTrue))]
      at hSwept
    exact (hSweeps _ error _ hSwept).elim
  · unfold undisturbed
    rw [quiet_bind]
    apply List.mem_append_right
    have hMem :
        .FollowReferences .secondTraversal ∈
          (undisturbed
            (fromSecondTraversal next 0)).completed :=
      mem_fromSecondTraversal
    rw [← hValue] at hMem
    exact hMem

end Continuation

end RetainedSizesAction

open RetainedSizesAction

namespace RetainedSizesViaDominatorTreeAction

theorem decides_executeOperation
    (fresh : List Bool)
    (hD : DecidesTree D) :
    Decides D AllComputed (executeOperation fresh) := by
  refine (decides_calculateRetainedSizes ?_
    (fun _ => hD.other _ rfl) (fun _ => hD.other _ rfl)
    (fun _ => hD.other _ rfl) (fun _ => hD.other _ rfl)
    ?_).1
  · rintro ⟨err, retainedSize⟩
    change Sweeps _ (if isOk err then _ else _)
    split
    · exact Sweeps.shouldStop (sweeps_readSizes _ _)
    · exact sweeps_pure
  · exact Decides.shouldStop (hD.readSizes _)

end RetainedSizesViaDominatorTreeAction

namespace RetainedSizesByClassViaDominatorTreeAction

theorem sweeps_sort
    (ks : List Nat) :
    Sweeps S (sort ks) := by
  induction ks with
  | nil => exact sweeps_pure
  | cons k rest ih =>
      exact (sweeps_getIndex _).bind
        (fun _ => (sweeps_getIndex _).bind (fun _ => ih))

theorem calls_sort
    (ks : List Nat)
    {c : Call}
    (hMem : c ∈ (undisturbed (sort ks)).calls) :
    isUnchecked c = true := by
  induction ks with
  | nil => exact absurd hMem List.not_mem_nil
  | cons k rest ih =>
      rcases List.mem_cons.mp hMem with hLeft | hMem
      · rw [hLeft]
        rfl
      rcases List.mem_cons.mp hMem with hRight | hMem
      · rw [hRight]
        rfl
      · exact ih hMem

theorem sweeps_collectObjectsOfClass :
    Sweeps (· = .FollowReferences .collectObjects)
      collectObjectsOfClass :=
  sweeps_andThenUnlessStopped
    (sweeps_jvmti.andThen (sweeps_followReferences rfl))
    (sweeps_andThenUnlessStopped sweeps_getObjectsByTags
      sweeps_jvmti)

/- What follows the calculation. -/
def sortAndRead
    (comparisons size : Nat)
    (r : jvmtiError × Number) : Program (List Number) :=
  if isOk r.1 then
    .shouldStop fun stop =>
      if stop then
        .ret []
      else
        sort (List.range comparisons) >>= fun _ =>
          readSizes r.2 (List.range size)
  else
    .ret []

theorem sweeps_sortAndRead
    (comparisons size : Nat)
    (r : jvmtiError × Number) :
    Sweeps S (sortAndRead comparisons size r) := by
  unfold sortAndRead
  split
  · exact Sweeps.shouldStop
      ((sweeps_sort _).bind (fun _ => sweeps_readSizes _ _))
  · exact sweeps_pure

theorem decides_sortAndRead
    (hD : DecidesTree D)
    (comparisons size : Nat) :
    Decides D AllComputed
      (sortAndRead comparisons size (0, .computed)) :=
  Decides.shouldStop (Decides.afterIgnored
    (fun c hMem => hD.unchecked c (calls_sort _ hMem))
    (sweeps_sort _) (hD.readSizes _))

theorem decides_executeOperation
    (fresh : List Bool)
    (comparisons size : Nat)
    (hD : DecidesTree D) :
    Decides D AllComputed
      (executeOperation fresh comparisons size) := by
  have hCollect : Settles D (· = 0) collectObjectsOfClass :=
    settles_andThenUnlessStopped
      ((settles_call (hD.other _ rfl)).andThen
        (settles_followReferences (hD.other _ rfl)))
      (settles_andThenUnlessStopped
        (settles_getObjectsByTags (hD.other _ rfl)
          (hD.other _ rfl) (hD.other _ rfl))
        (settles_call (hD.other _ rfl)))
  have hRest :
      Decides D AllComputed
          (calculateRetainedSizes fresh >>=
            sortAndRead comparisons size) ∧
        .FollowReferences .secondTraversal ∈
          (undisturbed
            (calculateRetainedSizes fresh >>=
              sortAndRead comparisons size)).completed :=
    decides_calculateRetainedSizes
      (sweeps_sortAndRead comparisons size)
      (fun _ => hD.other _ rfl) (fun _ => hD.other _ rfl)
      (fun _ => hD.other _ rfl) (fun _ => hD.other _ rfl)
      (decides_sortAndRead hD comparisons size)
  have hSweeps :
      Sweeps (· ≠ .FollowReferences .collectObjects)
        (calculateRetainedSizes fresh >>=
          sortAndRead comparisons size) := by
    rw [calculateRetainedSizes_bind]
    refine Sweeps.bind ?_ (fun err => ?_)
    · intro error c hMem hEq
      have hFirst :=
        sweeps_beforeSecondTraversal fresh error c hMem
      rw [hEq] at hFirst
      cases hFirst
    · unfold afterFirstTraversal
      split
      · intro error c hMem hEq
        have hSecond :=
          sweeps_fromSecondTraversal
            (sweeps_sortAndRead comparisons size) err error c
            hMem
        rw [hEq] at hSecond
        cases hSecond
      · exact sweeps_sortAndRead comparisons size _
  refine Decides.afterLadder hCollect hRest.1
    (List.ne_nil_of_mem hRest.2) ?_
  intro c hMem hEarly
  exact hSweeps _ c hMem
    (sweeps_collectObjectsOfClass _ c hEarly)

end RetainedSizesByClassViaDominatorTreeAction

end Actions

end MemoryAgent
