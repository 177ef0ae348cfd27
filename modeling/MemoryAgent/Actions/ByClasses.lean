import MemoryAgent.Actions.ByObjects

/-
  The failures that decide the sizes by classes.  A class
  whose signature is not read gets no tag, and its number
  misses the objects of the class.

  Key definitions include:
    * `Actions.DecidesClasses`
    * `RetainedSizeAction.lastSweep`

  Main results:
    * `Actions.settles_tagLoadedClasses`
    * `ShallowSizeByClassesAction.decides_executeOperation`
    * `RetainedSizeAction.decides_getSizes`
-/

------------------------------------------------------------
-- Sizes by Classes
------------------------------------------------------------

namespace MemoryAgent

namespace Actions

open Calls

variable {D S : Call → Prop}

theorem sweeps_tagLoadedClasses
    (i : Nat)
    (loaded : List (LoadedClass × Nat)) :
    Sweeps S (tagLoadedClasses i loaded) := by
  induction loaded with
  | nil => exact sweeps_pure
  | cons head rest ih =>
      unfold tagLoadedClasses
      split
      · refine sweeps_jvmti.bind (fun err => ?_)
        split
        · refine sweeps_jvmti.bind (fun signature => ?_)
          split
          · refine sweeps_setNewTag.bind (fun err => ?_)
            split
            · exact ih
            · exact sweeps_pure
          · exact ih.bind (fun _ => sweeps_pure)
        · exact sweeps_pure
      · exact ih

/- Only the signature of a filler class does not matter. -/
theorem settles_tagLoadedClasses
    (i : Nat)
    (loaded : List (LoadedClass × Nat))
    (hGet : ∀ place, D (.GetTag place))
    (hSet : ∀ place, D (.SetTag place))
    (hSignature :
      ∀ l ∈ loaded,
        D (.GetClassSignature i l.2) ↔
          l.1.filler = false) :
    Settles D (· = (0, true)) (tagLoadedClasses i loaded) := by
  induction loaded with
  | nil => exact settles_pure rfl
  | cons head rest ih =>
      have hRest :=
        ih (fun l hMem =>
          hSignature l (List.mem_cons_of_mem head hMem))
      have hHead := hSignature head List.mem_cons_self
      unfold tagLoadedClasses
      split
      swap
      · exact hRest
      -- A class that gets no tag spoils the pair.
      have hNil :
          ∀ error,
            (quiet error (tagLoadedClasses i rest)).completed =
              [] :=
        (sweeps_tagLoadedClasses i rest).completed_eq_nil
      refine (settles_call (hGet _)).bind ?_ ?_
      swap
      · intro err hErr error
        rw [if_neg (fun hTrue => hErr (isOk_iff.mp hTrue))]
        exact ⟨fun hEq => hErr (congrArg Prod.fst hEq),
          List.nil_subset _⟩
      have hOk : isOk 0 = true := rfl
      change Settles D _ (if isOk 0 = true then _ else _)
      rw [if_pos hOk]
      cases hFiller : head.1.filler with
      | true =>
          have hNot : ¬ D (.GetClassSignature i head.2) := by
            rw [hHead, hFiller]
            exact Bool.noConfusion
          simp only [Bool.not_true, Bool.and_false,
            Bool.false_eq_true, if_false, Bool.and_true]
          change Settles D _ (Prog.call _ (fun _ => _ >>= _))
          apply settles_ignored hNot
          refine hRest.bind ?_ ?_
          · rw [hRest.good]
            exact settles_pure rfl
          · intro pair hBad error
            exact ⟨hBad, List.nil_subset _⟩
      | false =>
          refine (settles_call (hHead.mpr hFiller)).bind ?_ ?_
          swap
          · intro err hErr error
            rw [if_neg (by
              simp [isOk_iff, show ¬ err = 0 from hErr])]
            rw [quiet_bind, hNil]
            refine ⟨?_, List.nil_subset _⟩
            intro hEq
            have hFalse := congrArg Prod.snd hEq
            change (_ && false) = true at hFalse
            rw [Bool.and_false] at hFalse
            cases hFalse
          change Settles D _
            (if (isOk 0 && !false) = true then _ else _)
          have hGo : (isOk 0 && !false) = true := rfl
          rw [if_pos hGo]
          refine (settles_setNewTag (hSet _)).bind ?_ ?_
          · rw [if_pos (isOk_iff.mpr
              (settles_setNewTag (hSet _)).good)]
            exact hRest
          · intro err hErr error
            rw [if_neg (fun hTrue =>
              hErr (isOk_iff.mp hTrue))]
            exact ⟨fun hEq => hErr (congrArg Prod.fst hEq),
              List.nil_subset _⟩

theorem sweeps_tagClassAndItsInheritors
    (i : Nat)
    (loaded : List LoadedClass) :
    Sweeps S (tagClassAndItsInheritors i loaded) := by
  refine sweeps_jvmti.bind (fun err => ?_)
  split
  · exact sweeps_tagLoadedClasses i _
  · exact sweeps_pure

/- The calls of which a failure changes a number by classes. -/
structure DecidesClasses
    (D : Call → Prop)
    (classes : List (List LoadedClass × Nat)) : Prop where
  loadedClasses : ∀ i, D (.GetLoadedClasses i)
  getTag : ∀ place, D (.GetTag place)
  setTag : ∀ place, D (.SetTag place)
  signature :
    ∀ l ∈ classes, ∀ loaded ∈ l.1.zipIdx,
      D (.GetClassSignature l.2 loaded.2) ↔
        loaded.1.filler = false

theorem DecidesClasses.tail
    {head : List LoadedClass × Nat}
    {rest : List (List LoadedClass × Nat)}
    (hD : DecidesClasses D (head :: rest)) :
    DecidesClasses D rest :=
  ⟨hD.loadedClasses, hD.getTag, hD.setTag,
    fun l hMem => hD.signature l
      (List.mem_cons_of_mem head hMem)⟩

theorem DecidesClasses.settles_head
    {loaded : List LoadedClass}
    {i : Nat}
    {rest : List (List LoadedClass × Nat)}
    (hD : DecidesClasses D ((loaded, i) :: rest)) :
    Settles D (· = (0, true))
      (tagClassAndItsInheritors i loaded) := by
  refine (settles_call (hD.loadedClasses i)).bind ?_ ?_
  · have hOk : isOk 0 = true := rfl
    change Settles D _ (if isOk 0 = true then _ else _)
    rw [if_pos hOk]
    exact settles_tagLoadedClasses i loaded.zipIdx hD.getTag
      hD.setTag
      (hD.signature (loaded, i) List.mem_cons_self)
  · intro err hErr error
    rw [if_neg (fun hTrue => hErr (isOk_iff.mp hTrue))]
    exact ⟨fun hEq => hErr (congrArg Prod.fst hEq),
      List.nil_subset _⟩

theorem Number.ofClass_ne
    {done : Bool} :
    Number.ofClass done false ≠ .computed := by
  intro hEq
  cases hEq

/- The numbers of tagged classes after a complete iteration. -/
theorem allComputed_map_iff
    {tagged : List Bool}
    {done : Bool} :
    AllComputed (tagged.map (Number.ofClass done)) ↔
      tagged = [] ∨ (done = true ∧ ∀ b ∈ tagged, b = true) := by
  unfold AllComputed
  simp only [List.mem_map, forall_exists_index, and_imp,
    forall_apply_eq_imp_iff₂]
  cases tagged with
  | nil => simp
  | cons head rest =>
      constructor
      · intro hAll
        refine Or.inr ⟨?_, ?_⟩
        · have hHead := hAll head List.mem_cons_self
          cases done with
          | true => rfl
          | false => cases head <;> cases hHead
        · intro b hMem
          cases b with
          | true => rfl
          | false =>
              exact absurd (hAll false hMem)
                Number.ofClass_ne
      · rintro (hNil | ⟨hDone, hTagged⟩) b hMem
        · cases hNil
        · rw [hTagged b hMem, hDone]
          rfl

namespace ShallowSizeByClassesAction

theorem sweeps_tagClasses
    (classes : List (List LoadedClass × Nat)) :
    Sweeps S (tagClasses classes) := by
  induction classes with
  | nil => exact sweeps_pure
  | cons head rest ih =>
      exact (sweeps_tagClassAndItsInheritors _ _).bind
        (fun _ => ih.bind (fun _ => sweeps_pure))

/- A class whose tagging failed spoils its entry. -/
theorem settles_tagClasses
    (classes : List (List LoadedClass × Nat))
    (hD : DecidesClasses D classes) :
    Settles D (fun tagged => ∀ b ∈ tagged, b = true)
      (tagClasses classes) := by
  induction classes with
  | nil =>
      exact settles_pure
        (fun b hMem => absurd hMem List.not_mem_nil)
  | cons head rest ih =>
      rcases head with ⟨loaded, i⟩
      have hRest := ih hD.tail
      refine hD.settles_head.bind ?_ ?_
      · rw [hD.settles_head.good]
        refine hRest.bind ?_ ?_
        · apply settles_pure
          intro b hMem
          rcases List.mem_cons.mp hMem with hEq | hMem
          · rw [hEq]
            rfl
          · exact hRest.good b hMem
        · intro others hBad error
          refine ⟨fun hAll => hBad ?_, List.nil_subset _⟩
          exact fun b hMem =>
            hAll b (List.mem_cons_of_mem _ hMem)
      · rintro ⟨err, tagged⟩ hBad error
        rw [quiet_bind]
        constructor
        · intro hAll
          apply hBad
          have hHead := hAll _ List.mem_cons_self
          rw [Bool.and_eq_true, isOk_iff] at hHead
          rw [hHead.1, hHead.2]
        · rw [(sweeps_tagClasses rest).completed_eq_nil]
          exact List.nil_subset _

theorem decides_executeOperation
    (classes : List (List LoadedClass))
    (hD : DecidesClasses D classes.zipIdx)
    (hSweep :
      D (.IterateThroughHeap .calculateShallowSize)) :
    Decides D AllComputed (executeOperation classes) := by
  have hTags := settles_tagClasses classes.zipIdx hD
  refine Decides.bind hTags ?_ ?_ ?_
  · refine Decides.shouldStop (Decides.shouldStop ?_)
    refine Decides.sweep hSweep ?_ ?_
    · apply Settles.decides
      apply settles_pure
      exact allComputed_map_iff.mpr
        (Or.inr ⟨rfl, hTags.good⟩)
    · intro error err done hMem
      exact absurd hMem List.not_mem_nil
  · intro c _ hEarly
    rw [undisturbed, (sweeps_tagClasses _).completed_eq_nil]
      at hEarly
    exact absurd hEarly List.not_mem_nil
  · intro tagged hBad error _ hComputed
    rcases allComputed_map_iff.mp hComputed with
      hNil | ⟨_, hAll⟩
    · apply hBad
      rw [hNil]
      exact fun b hMem => absurd hMem List.not_mem_nil
    · exact hBad hAll

end ShallowSizeByClassesAction

namespace RetainedSizeAction

theorem sweeps_createTagsForClasses
    (classes : List (List LoadedClass × Nat)) :
    Sweeps S (createTagsForClasses classes) := by
  induction classes with
  | nil => exact sweeps_pure
  | cons head rest ih =>
      refine (sweeps_tagClassAndItsInheritors _ _).bind ?_
      rintro ⟨err, tagged⟩
      change Sweeps S (if isOk err then _ else _)
      split
      · exact ih.bind (fun _ => sweeps_pure)
      · exact sweeps_pure

theorem settles_createTagsForClasses
    (classes : List (List LoadedClass × Nat))
    (hD : DecidesClasses D classes) :
    Settles D (fun a => a.1 = 0 ∧ ∀ b ∈ a.2, b = true)
      (createTagsForClasses classes) := by
  induction classes with
  | nil =>
      exact settles_pure
        ⟨rfl, fun b hMem => absurd hMem List.not_mem_nil⟩
  | cons head rest ih =>
      rcases head with ⟨loaded, i⟩
      have hRest := ih hD.tail
      have hOk : isOk 0 = true := rfl
      refine hD.settles_head.bind ?_ ?_
      · rw [hD.settles_head.good]
        change Settles D _ (if isOk 0 = true then _ else _)
        rw [if_pos hOk]
        refine hRest.bind ?_ ?_
        · apply settles_pure
          refine ⟨hRest.good.1, ?_⟩
          intro b hMem
          rcases List.mem_cons.mp hMem with hEq | hMem
          · exact hEq
          · exact hRest.good.2 b hMem
        · rintro ⟨err, others⟩ hBad error
          refine ⟨?_, List.nil_subset _⟩
          rintro ⟨hErr, hAll⟩
          exact hBad ⟨hErr, fun b hMem =>
            hAll b (List.mem_cons_of_mem _ hMem)⟩
      · rintro ⟨err, tagged⟩ hBad error
        dsimp only
        split
        · rename_i hErr
          rw [isOk_iff] at hErr
          rw [quiet_bind]
          constructor
          · rintro ⟨_, hAll⟩
            apply hBad
            rw [hErr, hAll tagged List.mem_cons_self]
          · rw [(sweeps_createTagsForClasses
              rest).completed_eq_nil]
            exact List.nil_subset _
        · rename_i hErr
          refine ⟨?_, List.nil_subset _⟩
          rintro ⟨hZero, _⟩
          exact hErr (isOk_iff.mpr hZero)

theorem settles_tagHeap
    (walks : List Bool)
    (hAll : ∀ callback, D (.FollowReferences callback))
    (hRetag : D (.IterateThroughHeap .retagStartObjects))
    (hObjects :
      D .GetObjectsWithTags ∧ D .DeallocateObjects ∧
        D .DeallocateTags)
    (hTag : ∀ place, D (.GetTag place)) :
    Settles D (· = 0) (tagHeap walks) := by
  apply settles_andThenUnlessStopped
    (settles_followReferences (hAll _))
  apply settles_andThenUnlessStopped
    (settles_getObjectsByTags hObjects.1 hObjects.2.1
      hObjects.2.2)
  apply settles_andThenUnlessStopped
    (settles_iterateThroughHeap hRetag)
  apply settles_andThenUnlessStopped
    (settles_followReferences (hAll _))
  exact settles_walkHeapFromObjects walks hTag
    (fun i => hAll _)

/- The sweeps before the sizes are added up. -/
theorem sweeps_tagObjects
    (walks : List Bool)
    (hFollow : ∀ callback, S (.FollowReferences callback))
    (hTag : S (.IterateThroughHeap .tagObjectOfTaggedClass))
    (hRetag : S (.IterateThroughHeap .retagStartObjects)) :
    Sweeps S
      (andThenUnlessStopped
        (iterateThroughHeap .tagObjectOfTaggedClass)
        (tagHeap walks)) := by
  refine sweeps_andThenUnlessStopped
    (sweeps_iterateThroughHeap hTag) ?_
  refine sweeps_andThenUnlessStopped
    (sweeps_followReferences (hFollow _)) ?_
  refine sweeps_andThenUnlessStopped
    sweeps_getObjectsByTags ?_
  refine sweeps_andThenUnlessStopped
    (sweeps_iterateThroughHeap hRetag) ?_
  exact sweeps_andThenUnlessStopped
    (sweeps_followReferences (hFollow _))
    (sweeps_walkHeapFromObjects walks (fun _ => hFollow _))

theorem allComputed_flatten
    {vectors : Nat}
    {sizes : List Number}
    (hPos : 0 < vectors) :
    AllComputed (List.replicate vectors sizes).flatten ↔
      AllComputed sizes := by
  unfold AllComputed
  constructor
  · intro hAll n hMem
    exact hAll n (List.mem_flatten.mpr
      ⟨sizes, List.mem_replicate.mpr ⟨Nat.ne_of_gt hPos, rfl⟩,
        hMem⟩)
  · intro hAll n hMem
    rcases List.mem_flatten.mp hMem with ⟨l, hL, hN⟩
    rw [List.eq_of_mem_replicate hL] at hN
    exact hAll n hN

/- The end of both actions: the last sweep, and the result. -/
def lastSweep
    (callback : Iteration)
    (vectors : Nat)
    (pack : jvmtiError → List Number → List Number)
    (tagged : List Bool) : Program (List Number) := do
  if ← shouldStopExecution then
    pure (pack MEMORY_AGENT_INTERRUPTED_ERROR [])
  else
    let (err, done) ← IterateThroughHeap callback
    let sizes := tagged.map (Number.ofClass done)
    pure (pack err (List.replicate vectors sizes).flatten)

theorem getSizes_bind
    (callback : Iteration)
    (vectors : Nat)
    (pack : jvmtiError → List Number → List Number)
    (classes : List (List LoadedClass))
    (walks : List Bool) :
    (getSizes callback vectors classes walks >>=
        fun r => pure (pack r.1 r.2)) =
      createTagsForClasses classes.zipIdx >>= fun a =>
        if isOk a.1 then
          andThenUnlessStopped
              (iterateThroughHeap .tagObjectOfTaggedClass)
              (tagHeap walks) >>= fun err =>
            if isOk err then
              lastSweep callback vectors pack a.2
            else
              .ret (pack err [])
        else
          .ret (pack a.1 []) := by
  unfold getSizes
  rw [Prog.bind_assoc]
  congr 1
  funext a
  rcases a with ⟨err, tagged⟩
  dsimp only
  split
  · rw [Prog.bind_assoc]
    congr 1
    funext err
    split
    swap
    · rfl
    change Prog.shouldStop _ = Prog.shouldStop _
    congr 1
    funext stop
    cases stop with
    | true => rfl
    | false =>
        change Prog.shouldStop _ = Prog.shouldStop _
        congr 1
        funext stop
        cases stop with
        | true => rfl
        | false => rfl
  · rfl

section LastSweep

variable {callback : Iteration}
variable {vectors : Nat}
variable {pack : jvmtiError → List Number → List Number}
variable {walks : List Bool}
variable {tagged : List Bool}
variable (hPack : ∀ numbers, pack 0 numbers = numbers)
variable (hPos : 0 < vectors)
variable (hTag : callback ≠ .tagObjectOfTaggedClass)
variable (hRetag : callback ≠ .retagStartObjects)
include hPack hPos

theorem decides_lastSweep
    (hD : D (.IterateThroughHeap callback))
    (hAll : ∀ b ∈ tagged, b = true) :
    Decides D AllComputed
      (lastSweep callback vectors pack tagged) := by
  refine Decides.shouldStop (Decides.shouldStop ?_)
  refine Decides.sweep hD ?_ ?_
  · apply Settles.decides
    apply settles_pure
    rw [hPack]
    exact (allComputed_flatten hPos).mpr
      (allComputed_map_iff.mpr (Or.inr ⟨rfl, hAll⟩))
  · intro error err done hMem
    exact absurd hMem List.not_mem_nil

/- A complete last sweep does not mend a missing tag. -/
theorem not_allComputed_lastSweep
    (hSome : ¬ ∀ b ∈ tagged, b = true)
    (error : Call → jvmtiError)
    (hSwept :
      .IterateThroughHeap callback ∈
        (quiet error
          (lastSweep callback vectors pack
            tagged)).completed) :
    ¬ AllComputed
      (quiet error
        (lastSweep callback vectors pack tagged)).value := by
  let c : Call := .IterateThroughHeap callback
  change c ∈ (if isOk (error c) = true then [c] else [])
    at hSwept
  change ¬ AllComputed
    (pack (error c)
      (List.replicate vectors
        (tagged.map (Number.ofClass (isOk (error c))))).flatten)
  split at hSwept
  · rename_i hOk
    rw [isOk_iff.mp hOk, hPack, allComputed_flatten hPos,
      allComputed_map_iff]
    rintro (hNil | ⟨_, hAll⟩)
    · apply hSome
      rw [hNil]
      exact fun b hMem => absurd hMem List.not_mem_nil
    · exact hSome hAll
  · exact absurd hSwept List.not_mem_nil

include hTag hRetag

theorem decides_getSizes
    {classes : List (List LoadedClass)}
    (hClasses : DecidesClasses D classes.zipIdx)
    (hFollow : ∀ callback, D (.FollowReferences callback))
    (hIterate :
      ∀ callback, D (.IterateThroughHeap callback))
    (hObjects :
      D .GetObjectsWithTags ∧ D .DeallocateObjects ∧
        D .DeallocateTags) :
    Decides D AllComputed
      (getSizes callback vectors classes walks >>=
        fun r => pure (pack r.1 r.2)) := by
  rw [getSizes_bind]
  have hTags :=
    settles_createTagsForClasses classes.zipIdx hClasses
  have hLadder :=
    settles_andThenUnlessStopped
      (settles_iterateThroughHeap
        (hIterate .tagObjectOfTaggedClass))
      (settles_tagHeap walks hFollow
        (hIterate .retagStartObjects) hObjects
        hClasses.getTag)
  have hSweeps :=
    sweeps_tagObjects
      (S := fun c => c ≠ .IterateThroughHeap callback) walks
      (fun _ => Call.noConfusion)
      (fun hEq => hTag (Call.IterateThroughHeap.inj hEq).symm)
      (fun hEq =>
        hRetag (Call.IterateThroughHeap.inj hEq).symm)
  have hOk :
      isOk (undisturbed
        (createTagsForClasses classes.zipIdx)).value.1 =
          true :=
    isOk_iff.mpr hTags.good.1
  -- The last sweep is the one of the undisturbed run.
  have hLast :
      ∀ a : jvmtiError × List Bool, isOk a.1 = true →
        .IterateThroughHeap callback ∈
          (undisturbed
            (if isOk a.1 then
              andThenUnlessStopped
                  (iterateThroughHeap
                    .tagObjectOfTaggedClass)
                  (tagHeap walks) >>= fun err =>
                if isOk err then
                  lastSweep callback vectors pack a.2
                else
                  .ret (pack err [])
            else
              .ret (pack a.1 []))).completed := by
    intro a hA
    rw [if_pos hA]
    unfold undisturbed
    rw [quiet_bind]
    apply List.mem_append_right
    have hZero :
        isOk (quiet (fun _ => 0)
          (andThenUnlessStopped
            (iterateThroughHeap .tagObjectOfTaggedClass)
            (tagHeap walks))).value = true :=
      isOk_iff.mpr hLadder.good
    rw [if_pos hZero]
    exact List.mem_singleton_self _
  apply Decides.bind hTags
  · rw [if_pos hOk]
    apply Decides.afterLadder hLadder
      (decides_lastSweep hPack hPos (hIterate callback)
        hTags.good.2)
    · exact List.cons_ne_nil _ _
    · intro c hMem hEarly
      exact hSweeps _ c hEarly (List.mem_singleton.mp hMem)
  · intro c _ hEarly
    rw [undisturbed,
      (sweeps_createTagsForClasses _).completed_eq_nil]
      at hEarly
    exact absurd hEarly List.not_mem_nil
  · rintro ⟨err, tagged⟩ hBad error hSubset
    have hSwept := hSubset (hLast _ hOk)
    dsimp only at hSwept ⊢
    split at hSwept
    · rename_i hErr
      rw [if_pos hErr, quiet_bind]
      rw [quiet_bind] at hSwept
      dsimp only at hSwept ⊢
      rcases List.mem_append.mp hSwept with hEarly | hLate
      · exact absurd rfl (hSweeps error _ hEarly)
      · split at hLate
        · rename_i hErrLadder
          rw [if_pos hErrLadder]
          apply not_allComputed_lastSweep hPack hPos ?_ error
            hLate
          intro hAll
          exact hBad ⟨isOk_iff.mp hErr, hAll⟩
        · exact absurd hLate List.not_mem_nil
    · exact absurd hSwept List.not_mem_nil

end LastSweep

end RetainedSizeAction

theorem decides_getRetainedSizeByClasses
    {classes : List (List LoadedClass)}
    {walks : List Bool}
    (hClasses : DecidesClasses D classes.zipIdx)
    (hFollow : ∀ callback, D (.FollowReferences callback))
    (hIterate :
      ∀ callback, D (.IterateThroughHeap callback))
    (hObjects :
      D .GetObjectsWithTags ∧ D .DeallocateObjects ∧
        D .DeallocateTags) :
    Decides D AllComputed
      (RetainedSizeByClassesAction.executeOperation classes
        walks) := by
  have hEq :
      RetainedSizeByClassesAction.executeOperation classes
          walks =
        RetainedSizeAction.getSizes .visitObject 1 classes
          walks >>= fun r =>
            pure (if isOk r.1 then r.2 else []) := by
    unfold RetainedSizeByClassesAction.executeOperation
    congr 1
    funext r
    rcases r with ⟨err, result⟩
    dsimp only
    split
    · rfl
    · rfl
  rw [hEq]
  let pack : jvmtiError → List Number → List Number :=
    fun err numbers => if isOk err then numbers else []
  have hPack : ∀ numbers, pack 0 numbers = numbers :=
    fun _ => rfl
  have hTag :
      Iteration.visitObject ≠ .tagObjectOfTaggedClass := by
    decide
  have hRetag :
      Iteration.visitObject ≠ .retagStartObjects := by
    decide
  exact RetainedSizeAction.decides_getSizes hPack
    Nat.one_pos hTag hRetag hClasses hFollow hIterate
    hObjects

theorem decides_getShallowAndRetainedSizeByClasses
    {classes : List (List LoadedClass)}
    {walks : List Bool}
    (hClasses : DecidesClasses D classes.zipIdx)
    (hFollow : ∀ callback, D (.FollowReferences callback))
    (hIterate :
      ∀ callback, D (.IterateThroughHeap callback))
    (hObjects :
      D .GetObjectsWithTags ∧ D .DeallocateObjects ∧
        D .DeallocateTags) :
    Decides D AllComputed
      (RetainedAndShallowSizeByClassesAction.executeOperation
        classes walks) := by
  let pack : jvmtiError → List Number → List Number :=
    fun _ numbers => numbers
  have hPack : ∀ numbers, pack 0 numbers = numbers :=
    fun _ => rfl
  have hTag :
      Iteration.visitObjectForShallowAndRetainedSize ≠
        .tagObjectOfTaggedClass := by
    decide
  have hRetag :
      Iteration.visitObjectForShallowAndRetainedSize ≠
        .retagStartObjects := by
    decide
  exact RetainedSizeAction.decides_getSizes hPack
    Nat.two_pos hTag hRetag hClasses hFollow hIterate
    hObjects

end Actions

end MemoryAgent
