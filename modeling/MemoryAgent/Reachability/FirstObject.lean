import MemoryAgent.Reachability.ObjectsOfClass

/-
  `getFirstReachableObject` stops the traversal at the first
  object that it finds.  Tags of found objects and of marked
  class objects stay, so that the whole traversal finds the
  object too.

  Key definitions include:
    * `Reachability.getFirstReachableObject`
    * `Reachability.Settled`

  Main results:
    * `Reachability.FoundOnce.invoke`
    * `Reachability.settled_stays`
    * `Reachability.first_agrees`
-/

------------------------------------------------------------
-- Tags That Stay
------------------------------------------------------------

namespace MemoryAgent

namespace Reachability

/- The first object with the tag, if there is one. -/
def getFirstReachableObject
    {O : Type}
    (result : List O) : Option O :=
  result.head?

/- The tags of found objects and of marked class objects. -/
def Settled (tag : jlong) : Prop :=
  tag = objectOfClassTag ∨ tag = classTag ∨
    tag = referenceClassTag

variable {O : Type}
variable [DecidableEq O]
variable {h : Heap O}
variable {refClasses inheritors : List O}
variable {startObject : Option O}
variable {r : Report O}
variable {s s' : Tagged O jlong Bool}

/- The class of a found object has the tag of classes. -/
def FoundOnce
    (h : Heap O)
    (s : Tagged O jlong Bool) : Prop :=
  ∀ o, s.tag o = objectOfClassTag →
    s.tag (h.classOf o) = classTag

theorem reachableTag_of_found
    {args : ReferenceArguments jlong}
    (hTag : args.tag = objectOfClassTag)
    (hClass : args.classTag = classTag) :
    reachableTag args = objectOfClassTag := by
  unfold reachableTag
  rw [hTag, hClass]
  rfl

/- The callback keeps a settled tag. -/
theorem FoundOnce.tag_settled
    (hFound : FoundOnce h s)
    (hSettled : Settled (s.tag r.referee)) :
    (findReachableObjectsOfClass (h.arguments r s)
      s.user).1 = s.tag r.referee := by
  have hTag : (h.arguments r s).tag = s.tag r.referee := rfl
  rcases hSettled with hObject | hClass | hReference
  · have hNot :
        ¬ ((h.arguments r s).tag = referenceClassTag ∨
          (h.arguments r s).tag = classTag) := by
      rw [hTag, hObject]
      decide
    have hClassTag :
        (h.arguments r s).classTag = classTag :=
      hFound r.referee hObject
    rw [findReachableObjectsOfClass_tag s.user hNot,
      reachableTag_of_found (hTag.trans hObject) hClassTag,
      if_neg (fun hBoth => absurd hBoth.2 (by decide)),
      hObject]
  · unfold findReachableObjectsOfClass
    rw [if_pos (Or.inr (hTag.trans hClass))]
    exact hTag
  · unfold findReachableObjectsOfClass
    rw [if_pos (Or.inl (hTag.trans hReference))]
    exact hTag

/- An object is found when its class has the tag. -/
theorem classTag_of_found
    {args : ReferenceArguments jlong}
    {findFirst : Bool}
    (hNot : args.tag ≠ objectOfClassTag)
    (hFound :
      (findReachableObjectsOfClass args findFirst).1 =
        objectOfClassTag) :
    args.classTag = classTag ∧ args.tag ≠ classTag := by
  by_cases hMarked :
      args.tag = referenceClassTag ∨ args.tag = classTag
  · unfold findReachableObjectsOfClass at hFound
    rw [if_pos hMarked] at hFound
    exact absurd hFound hNot
  · rw [findReachableObjectsOfClass_tag findFirst hMarked]
      at hFound
    refine ⟨?_, fun hTag => hMarked (Or.inr hTag)⟩
    split at hFound
    · next hBoth => exact hBoth.1
    · exfalso
      unfold reachableTag at hFound
      split at hFound
      · exact absurd hFound (by decide)
      · split at hFound
        · split at hFound
          · exact absurd hFound (by decide)
          · exact absurd hFound (by decide)
        · split at hFound
          · split at hFound
            · exact hNot hFound
            · exact absurd hFound (by decide)
          · exact hNot hFound

theorem FoundOnce.invoke
    (hFound : FoundOnce h s)
    (r : Report O) :
    FoundOnce h
        (h.invoke findReachableObjectsOfClass r s).1 ∧
      ∀ o, Settled (s.tag o) →
        (h.invoke findReachableObjectsOfClass r s).1.tag o =
          s.tag o := by
  have hStays :
      ∀ o, Settled (s.tag o) →
        (h.invoke findReachableObjectsOfClass r s).1.tag o =
          s.tag o := by
    intro o hSettled
    rw [Heap.invoke_tag]
    by_cases hEq : o = r.referee
    · rw [hEq] at hSettled ⊢
      rw [Function.update_self]
      exact hFound.tag_settled hSettled
    · rw [Function.update_of_ne hEq]
  refine ⟨?_, hStays⟩
  intro o hObject
  have hClass : s.tag (h.classOf o) = classTag := by
    by_cases hOld : s.tag o = objectOfClassTag
    · exact hFound o hOld
    · rw [Heap.invoke_tag] at hObject
      by_cases hEq : o = r.referee
      · rw [hEq, Function.update_self] at hObject
        rw [hEq] at hOld ⊢
        exact (classTag_of_found hOld hObject).1
      · rw [Function.update_of_ne hEq] at hObject
        exact absurd hObject hOld
  rw [hStays _ (Or.inr (Or.inl hClass))]
  exact hClass

theorem foundOnce_initialTags
    (findFirst : Bool) :
    FoundOnce h
      (initialTags refClasses inheritors findFirst) := by
  intro o hObject
  rw [initialTags_tag] at hObject
  split at hObject
  · exact absurd hObject (by decide)
  · split at hObject
    · exact absurd hObject (by decide)
    · exact absurd hObject (by decide)

/- Along further reports, settled tags stay. -/
theorem FoundOnce.replay
    (reports : List (Report O))
    {state : Worklist.State O (Report O)
      (Tagged O jlong Bool)}
    (hFound : FoundOnce h state.data) :
    FoundOnce h
        (Worklist.replay h.graph
          (h.invoke findReachableObjectsOfClass) reports
          state).data ∧
      ∀ o, Settled (state.data.tag o) →
        (Worklist.replay h.graph
          (h.invoke findReachableObjectsOfClass) reports
          state).data.tag o = state.data.tag o := by
  apply Worklist.replay_data_invariant
    (fun data : Tagged O jlong Bool =>
      FoundOnce h data ∧
        ∀ o, Settled (state.data.tag o) →
          data.tag o = state.data.tag o)
  · rintro data r ⟨hData, hSame⟩
    rcases hData.invoke r with ⟨hNext, hStays⟩
    refine ⟨hNext, ?_⟩
    intro o hSettled
    have hOld := hSame o hSettled
    rw [← hOld] at hSettled
    exact (hStays o hSettled).trans hOld
  · exact ⟨hFound, fun _ _ => rfl⟩

/- A settled tag stays for the rest of a traversal. -/
theorem settled_stays
    (findFirst : Bool)
    (reports rest : List (Report O))
    {o : O}
    (hSettled :
      Settled
        ((getReachableObjectsOfClass h refClasses inheritors
          startObject findFirst reports).tag o)) :
    (getReachableObjectsOfClass h refClasses inheritors
        startObject findFirst (reports ++ rest)).tag o =
      (getReachableObjectsOfClass h refClasses inheritors
        startObject findFirst reports).tag o := by
  have hInit :
      (h.traversal startObject
        (initialTags refClasses inheritors findFirst)).data =
          initialTags refClasses inheritors findFirst := by
    cases startObject with
    | none => rfl
    | some a => rfl
  unfold getReachableObjectsOfClass Heap.followReferences
    at *
  rw [Worklist.replay_append]
  refine (FoundOnce.replay rest ?_).2 o hSettled
  apply (FoundOnce.replay reports ?_).1
  rw [hInit]
  exact foundOnce_initialTags findFirst

------------------------------------------------------------
-- The First Object
------------------------------------------------------------

/- Looking for one object differs in the answer only. -/
theorem findFirst_cases
    (args : ReferenceArguments jlong) :
    ∃ tag,
      findReachableObjectsOfClass args false =
          (tag, false, .visit) ∧
        (findReachableObjectsOfClass args true =
            (tag, true, .visit) ∨
          (tag = objectOfClassTag ∧
            findReachableObjectsOfClass args true =
              (tag, true, .stop))) := by
  unfold findReachableObjectsOfClass
  split
  · exact ⟨args.tag, rfl, Or.inl rfl⟩
  · dsimp only
    split
    · exact ⟨objectOfClassTag, rfl, Or.inr ⟨rfl, rfl⟩⟩
    · exact ⟨reachableTag args, rfl, Or.inl rfl⟩

theorem find_follows :
    Worklist.Follows
      (h.invoke findReachableObjectsOfClass)
      (h.invoke findReachableObjectsOfClass)
      (fun s s' =>
        s'.tag = s.tag ∧ s.user = false ∧ s'.user = true)
      (fun s' => ∃ o, s'.tag o = objectOfClassTag) := by
  have hArguments :
      ∀ (r : Report O) (s s' : Tagged O jlong Bool),
        s'.tag = s.tag → h.arguments r s' = h.arguments r s := by
    intro r s s' hTag
    unfold Heap.arguments
    rw [hTag]
  constructor
  · rintro r s s' ⟨hTag, hUser, hUser'⟩
    rcases findFirst_cases (h.arguments r s) with
      ⟨tag, hAll, hFirst | ⟨_, hFirst⟩⟩
    · rw [Heap.invoke_tag, Heap.invoke_tag,
        Heap.invoke_user, Heap.invoke_user,
        hArguments r s s' hTag, hUser, hUser', hAll, hFirst,
        hTag]
      exact ⟨rfl, rfl, rfl⟩
    · rw [Heap.invoke_tag, Heap.invoke_tag,
        Heap.invoke_user, Heap.invoke_user,
        hArguments r s s' hTag, hUser, hUser', hAll, hFirst,
        hTag]
      exact ⟨rfl, rfl, rfl⟩
  · rintro r s s' ⟨hTag, hUser, hUser'⟩ hNot
    rw [Heap.invoke_signal, hArguments r s s' hTag, hUser']
      at hNot ⊢
    rw [Heap.invoke_signal, hUser]
    rcases findFirst_cases (h.arguments r s) with
      ⟨tag, hAll, hFirst | ⟨_, hFirst⟩⟩
    · rw [hAll, hFirst]
    · rw [hFirst] at hNot
      exact absurd rfl hNot
  · rintro r s s' ⟨hTag, hUser, hUser'⟩ hStop
    rw [Heap.invoke_signal, hArguments r s s' hTag, hUser']
      at hStop
    refine ⟨r.referee, ?_⟩
    rw [Heap.invoke_tag, Function.update_self,
      hArguments r s s' hTag, hUser']
    rcases findFirst_cases (h.arguments r s) with
      ⟨tag, hAll, hFirst | ⟨hTagEq, hFirst⟩⟩
    · rw [hFirst] at hStop
      cases hStop
    · rw [hFirst]
      exact hTagEq

theorem initialTags_same :
    (initialTags refClasses inheritors true).tag =
        (initialTags refClasses inheritors false).tag ∧
      (initialTags refClasses inheritors false).user =
        false ∧
      (initialTags refClasses inheritors true).user =
        true := by
  refine ⟨?_, tagClassAndItsInheritors_user _,
    tagClassAndItsInheritors_user _⟩
  funext o
  rw [initialTags_tag, initialTags_tag]

/-
  The tags of the traversal that looks for one object, and
  that it is the whole traversal if it finds nothing.
-/
theorem first_tags
    {reports first : List (Report O)}
    (hReports :
      h.FollowReferences startObject
        findReachableObjectsOfClass
        (initialTags refClasses inheritors false) reports)
    (hFirst :
      h.FollowReferences startObject
        findReachableObjectsOfClass
        (initialTags refClasses inheritors true) first)
    (hPrefix : first <+: reports) :
    (getReachableObjectsOfClass h refClasses inheritors
          startObject true first).tag =
        (getReachableObjectsOfClass h refClasses inheritors
          startObject false first).tag ∧
      (first = reports ∨
        ∃ o,
          (getReachableObjectsOfClass h refClasses
            inheritors startObject true first).tag o =
              objectOfClassTag) := by
  rcases hPrefix with ⟨rest, hSplit⟩
  let init :=
    h.traversal startObject
      (initialTags refClasses inheritors false)
  let init' :=
    h.traversal startObject
      (initialTags refClasses inheritors true)
  have hPending : init'.pending = init.pending := by
    cases startObject with
    | none => rfl
    | some a => rfl
  have hExpanded : init'.expanded = init.expanded := by
    cases startObject with
    | none => rfl
    | some a => rfl
  have hRelated :
      init'.data.tag = init.data.tag ∧
        init.data.user = false ∧
        init'.data.user = true := by
    cases startObject with
    | none => exact initialTags_same
    | some a => exact initialTags_same
  rcases find_follows.replay hPending hExpanded hRelated
      hFirst.1.1 with ⟨⟨hTag, _, _⟩, hEnd | hFound⟩
  · refine ⟨hTag, Or.inl ?_⟩
    have hValid := hReports.1.1
    rw [← hSplit, Worklist.valid_append_iff] at hValid
    rw [← hSplit]
    cases rest with
    | nil => exact (List.append_nil first).symm
    | cons r rest =>
        have hMem := hValid.2.1
        rw [← hEnd, hFirst.1.2] at hMem
        exact absurd hMem List.not_mem_nil
  · exact ⟨hTag, Or.inr hFound⟩

/-
  Both actions agree when references are reported to them in
  the same order: the first object is one of all objects, if
  there are any.  A settled tag stays.
-/
theorem first_agrees
    {O : Type}
    [DecidableEq O]
    (h : Heap O)
    (refClasses inheritors : List O)
    (startObject : Option O)
    (reports first : List (Report O))
    (result reachableObjects : List O)
    (hReports :
      h.FollowReferences startObject
        findReachableObjectsOfClass
        (initialTags refClasses inheritors false) reports)
    (hFirst :
      h.FollowReferences startObject
        findReachableObjectsOfClass
        (initialTags refClasses inheritors true) first)
    (hPrefix : first <+: reports)
    (hResult :
      Heap.ObjectsWithTags
        (getReachableObjectsOfClass h refClasses inheritors
          startObject true first)
        [objectOfClassTag] result)
    (hObjects :
      Heap.ObjectsWithTags
        (getReachableObjectsOfClass h refClasses inheritors
          startObject false reports)
        [objectOfClassTag] reachableObjects) :
    (getFirstReachableObject result = none ↔
        reachableObjects = []) ∧
      (∀ o, getFirstReachableObject result = some o →
        o ∈ reachableObjects) ∧
      ∀ i j, i ≤ j → ∀ o,
        Settled
            ((getReachableObjectsOfClass h refClasses
              inheritors startObject false
                (reports.take i)).tag o) →
          (getReachableObjectsOfClass h refClasses inheritors
              startObject false (reports.take j)).tag o =
            (getReachableObjectsOfClass h refClasses
              inheritors startObject false
                (reports.take i)).tag o := by
  have hNe : objectOfClassTag ≠ 0 := by decide
  have hIn :=
    ((Heap.objectsWithTags_singleton hNe).mp hResult).2
  have hInAll :=
    ((Heap.objectsWithTags_singleton hNe).mp hObjects).2
  rcases first_tags hReports hFirst hPrefix with
    ⟨hTag, hEnd⟩
  have hSubset : ∀ o ∈ result, o ∈ reachableObjects := by
    intro o hMem
    rw [hIn, hTag] at hMem
    rw [hInAll]
    rcases hPrefix with ⟨rest, hSplit⟩
    rw [← hSplit,
      settled_stays false first rest (Or.inl hMem)]
    exact hMem
  refine ⟨?_, ?_, ?_⟩
  · unfold getFirstReachableObject
    rw [List.head?_eq_none_iff]
    constructor
    · intro hNil
      rw [List.eq_nil_iff_forall_not_mem]
      intro o hMem
      rcases hEnd with hSame | ⟨p, hFound⟩
      · rw [hInAll, ← hSame, ← hTag, ← hIn, hNil] at hMem
        exact absurd hMem List.not_mem_nil
      · rw [← hIn, hNil] at hFound
        exact absurd hFound List.not_mem_nil
    · intro hNil
      rw [List.eq_nil_iff_forall_not_mem]
      intro o hMem
      have hAll := hSubset o hMem
      rw [hNil] at hAll
      exact absurd hAll List.not_mem_nil
  · intro o hHead
    exact hSubset o (List.mem_of_mem_head? hHead)
  · intro i j hLe o hSettled
    have hSplit :
        reports.take j =
          reports.take i ++ (reports.take j).drop i := by
      have hTake :
          (reports.take j).take i = reports.take i := by
        rw [List.take_take, Nat.min_eq_left hLe]
      rw [← hTake, List.take_append_drop]
    rw [hSplit]
    exact settled_stays false _ _ hSettled

/- Object 2 is strong before object 3 is reported. -/
def earlyReports : List (Report (Fin 8)) :=
  [⟨none, .stackLocal, .none, 0⟩,
    ⟨none, .stackLocal, .none, 1⟩,
    ⟨some 1, .field, .none, 2⟩,
    ⟨some 2, .field, .none, 3⟩,
    ⟨some 0, .field, .none, 2⟩]

theorem first_agrees_early :
    (getFirstReachableObject [(3 : Fin 8)] = none ↔
        [(3 : Fin 8)] = []) ∧
      (∀ o, getFirstReachableObject [(3 : Fin 8)] = some o →
        o ∈ [(3 : Fin 8)]) :=
  have hAgrees :=
    first_agrees lateHeap [5] [4] none earlyReports
      (earlyReports.take 4) [3] [3] (by decide) (by decide)
      (List.take_prefix 4 earlyReports) (by decide)
      (by decide)
  ⟨hAgrees.1, hAgrees.2.1⟩

end Reachability

end MemoryAgent
