import MemoryAgent.Jvmti.Heap

/-
  `RetainedSizeAndHeldObjectsAction`, behind `size(object)`.

  The first traversal marks what the roots reach around the
  start object, the second one marks and counts what the
  start object reaches of the rest.

  Key definitions include:
    * `RetainedSizeAndHeldObjects.firstTraversal`
    * `RetainedSizeAndHeldObjects.secondTraversal`
    * `RetainedSizeAndHeldObjects.executeOperation`

  Main result:
    * `RetainedSizeAndHeldObjects.size_eq_retained`
-/

------------------------------------------------------------
-- The Action
------------------------------------------------------------

namespace MemoryAgent

namespace RetainedSizeAndHeldObjects

def startTag : jlong := 1

def heldObjectTag : jlong := 2

def visitedTag : jlong := 3

def firstTraversal : HeapReferenceCallback jlong Unit :=
  fun args userData =>
    if args.refKind.isJni then
      (args.tag, userData, .skip)
    else if args.tag = startTag then
      (args.tag, userData, .skip)
    else if args.tag = 0 then
      (visitedTag, userData, .visit)
    else
      (args.tag, userData, .visit)

/- The user data is the retained size counted so far. -/
def secondTraversal : HeapReferenceCallback jlong jlong :=
  fun args retainedSize =>
    if args.tag ≠ 0 ∨ args.refKind.isJni then
      (args.tag, retainedSize, .skip)
    else if args.tag = 0 then
      (heldObjectTag, retainedSize + args.size, .visit)
    else
      (args.tag, retainedSize, .visit)

variable {O : Type}
variable [DecidableEq O]

/- `SetTag(object, START_TAG)` on a heap without tags. -/
def tagStartObject (object : O) : Tagged O jlong Unit :=
  Tagged.setTag ⟨fun _ => 0, ()⟩ object startTag

def traverseHeapForTheFirstTime
    (h : Heap O)
    (object : O)
    (first : List (Report O)) : Tagged O jlong Unit :=
  h.followReferences none firstTraversal
    (tagStartObject object) first

/-
  The second traversal; the start object is tagged and
  counted after it.
-/
def traverseHeapFromStartObjectAndCountRetainedSize
    (h : Heap O)
    (object : O)
    (s : Tagged O jlong Unit)
    (second : List (Report O)) : Tagged O jlong jlong :=
  let walked :=
    h.followReferences (some object) secondTraversal
      ⟨s.tag, 0⟩ second
  { walked.setTag object heldObjectTag with
      user := walked.user + h.size object }

def estimateObjectSize
    (h : Heap O)
    (object : O)
    (first second : List (Report O)) :
    Tagged O jlong jlong :=
  traverseHeapFromStartObjectAndCountRetainedSize h object
    (traverseHeapForTheFirstTime h object first) second

/- The arrays that `createResultObject` packs. -/
structure Result (O : Type) where
  shallowSize : jlong
  retainedSize : jlong
  heldObjects : List O

/-
  The result of an uninterrupted run.  `first` and `second`
  are the orders of the two traversals, and `heldObjects`
  is the answer of `GetObjectsWithTags`.
-/
def executeOperation
    (h : Heap O)
    (object : O)
    (first second : List (Report O))
    (heldObjects : List O) : Result O where
  shallowSize := h.size object
  retainedSize :=
    (estimateObjectSize h object first second).user
  heldObjects := heldObjects

/- The orders and the answer are ones that JVMTI may give. -/
structure Uninterrupted
    (h : Heap O)
    (object : O)
    (first second : List (Report O))
    (heldObjects : List O) : Prop where
  first_complete :
    h.FollowReferences none firstTraversal
      (tagStartObject object) first
  second_complete :
    h.FollowReferences (some object) secondTraversal
      ⟨(traverseHeapForTheFirstTime h object first).tag, 0⟩
      second
  heldObjects_tagged :
    Heap.ObjectsWithTags
      (estimateObjectSize h object first second)
      [heldObjectTag] heldObjects

------------------------------------------------------------
-- The First Traversal
------------------------------------------------------------

/-
  During the first traversal the start object keeps its tag
  and every other object is unmarked or visited.
-/
structure FirstTags
    (object : O)
    (s : Tagged O jlong Unit) : Prop where
  start : s.tag object = startTag
  others :
    ∀ o, o ≠ object → s.tag o = 0 ∨ s.tag o = visitedTag

/- The reports that may mark their referee as visited. -/
def EntersFirst
    (object : O)
    (r : Report O) : Prop :=
  r.kind.isJni = false ∧ ¬ r.referee = object

theorem firstTraversal_of_enters
    {h : Heap O}
    {object : O}
    {s : Tagged O jlong Unit}
    (hTags : FirstTags object s)
    {r : Report O}
    (hEnters : EntersFirst object r) :
    firstTraversal (h.arguments r s) s.user =
      (visitedTag, s.user, .visit) := by
  have hJni : r.reference.kind.isJni = false := hEnters.1
  rcases hTags.others r.referee hEnters.2 with hTag | hTag
  · simp [firstTraversal, Heap.arguments, hJni, hTag,
      startTag]
  · simp [firstTraversal, Heap.arguments, hJni, hTag,
      startTag, visitedTag]

theorem firstTraversal_of_not_enters
    {h : Heap O}
    {object : O}
    {s : Tagged O jlong Unit}
    (hTags : FirstTags object s)
    {r : Report O}
    (hEnters : ¬ EntersFirst object r) :
    firstTraversal (h.arguments r s) s.user =
      (s.tag r.referee, s.user, .skip) := by
  by_cases hJni : r.reference.kind.isJni = true
  · simp [firstTraversal, Heap.arguments, hJni]
  · have hEq : r.reference.referee = object := by
      by_contra hNe
      exact hEnters ⟨by simpa using hJni, hNe⟩
    simp [firstTraversal, Heap.arguments, hEq, hTags.start]

theorem FirstTags.invoke
    {h : Heap O}
    {object : O}
    {s : Tagged O jlong Unit}
    (hTags : FirstTags object s)
    (r : Report O) :
    FirstTags object
      (h.invoke firstTraversal r s).1 := by
  by_cases hEnters : EntersFirst object r
  · have hCall :=
      firstTraversal_of_enters (h := h) hTags hEnters
    constructor
    · rw [Heap.invoke_tag, hCall,
        Function.update_of_ne (Ne.symm hEnters.2)]
      exact hTags.start
    · intro o hNe
      rw [Heap.invoke_tag, hCall]
      by_cases hEq : o = r.referee
      · simp [hEq]
      · simpa [hEq] using hTags.others o hNe
  · have hCall :=
      firstTraversal_of_not_enters (h := h) hTags hEnters
    constructor
    · rw [Heap.invoke_tag, hCall, Function.update_eq_self]
      exact hTags.start
    · rw [Heap.invoke_tag, hCall, Function.update_eq_self]
      exact hTags.others

theorem firstTraversal_marks
    (h : Heap O)
    (object : O) :
    Worklist.Marks h.graph (h.invoke firstTraversal)
      (FirstTags object) (EntersFirst object)
      (fun s o => s.tag o = visitedTag) := by
  apply h.marks_of_answers
  · exact fun r s hTags => hTags.invoke r
  · intro r s hTags hEnters
    simp [firstTraversal_of_enters hTags hEnters]
  · intro r s hTags hEnters
    simp [firstTraversal_of_not_enters hTags hEnters]

theorem tagStartObject_firstTags (object : O) :
    FirstTags object (tagStartObject object) := by
  constructor
  · simp [tagStartObject]
  · intro o hNe
    exact Or.inl (Tagged.setTag_tag_of_ne _ _ hNe)

/-
  After the first traversal those objects are untagged that
  are not the start object and that no root outside JNI
  reaches around the start object.
-/
theorem traverseHeapForTheFirstTime_tag_eq_zero_iff
    {h : Heap O}
    {object : O}
    {first : List (Report O)}
    (hFirst :
      h.FollowReferences none firstTraversal
        (tagStartObject object) first)
    (o : O) :
    (traverseHeapForTheFirstTime h object first).tag o = 0 ↔
      o ≠ object ∧ ¬ h.ReachedAvoiding (· = object) o := by
  have hTags :
      FirstTags object
        (traverseHeapForTheFirstTime h object first) :=
    Worklist.replay_data_invariant (FirstTags object)
      (fun s r hTags => hTags.invoke r)
      (tagStartObject_firstTags object)
  have hUnmarked :
      ∀ o, ¬ (tagStartObject object).tag o = visitedTag := by
    intro o hTag
    by_cases hEq : o = object
    · rw [hEq, (tagStartObject_firstTags object).start]
        at hTag
      cases hTag
    · rw [tagStartObject,
        Tagged.setTag_tag_of_ne _ _ hEq] at hTag
      cases hTag
  have hMarked :
      (traverseHeapForTheFirstTime h object first).tag o =
          visitedTag ↔ h.ReachedAvoiding (· = object) o :=
    ((firstTraversal_marks h object).marked_iff_reached
      [] (by simp)
      (tagStartObject_firstTags object) hUnmarked
      hFirst.1 o).trans
      (h.reached_rootReports_iff (· = object) o)
  rw [← hMarked]
  by_cases hEq : o = object
  · simp [hEq, hTags.start, startTag]
  · rcases hTags.others o hEq with hTag | hTag
    · simp [hEq, hTag, visitedTag]
    · simp [hEq, hTag, visitedTag]

------------------------------------------------------------
-- The Second Traversal
------------------------------------------------------------

/- The total size of the objects that carry a tag. -/
def taggedSize
    {U : Type}
    [Fintype O]
    (h : Heap O)
    (t : jlong)
    (s : Tagged O jlong U) : jlong :=
  ∑ o ∈ Finset.univ.filter (fun o => s.tag o = t), h.size o

/-
  During the second traversal the objects that were tagged
  before it keep their tag, the others are unmarked or held,
  and the user data is the size of the held objects.
-/
structure SecondTags
    [Fintype O]
    (h : Heap O)
    (before : O → jlong)
    (s : Tagged O jlong jlong) : Prop where
  tagged : ∀ o, before o ≠ 0 → s.tag o = before o
  others :
    ∀ o, before o = 0 →
      s.tag o = 0 ∨ s.tag o = heldObjectTag
  counted : s.user = taggedSize h heldObjectTag s

/- The reports that may mark their referee as held. -/
def EntersSecond
    (before : O → jlong)
    (r : Report O) : Prop :=
  r.kind.isJni = false ∧ before r.referee = 0

variable [Fintype O]

theorem secondTraversal_of_not_enters
    {h : Heap O}
    {before : O → jlong}
    {s : Tagged O jlong jlong}
    (hTags : SecondTags h before s)
    {r : Report O}
    (hEnters : ¬ EntersSecond before r) :
    secondTraversal (h.arguments r s) s.user =
      (s.tag r.referee, s.user, .skip) := by
  by_cases hJni : r.reference.kind.isJni = true
  · simp [secondTraversal, Heap.arguments, hJni]
  · have hBefore : before r.reference.referee ≠ 0 :=
      fun hZero => hEnters ⟨by simpa using hJni, hZero⟩
    simp [secondTraversal, Heap.arguments,
      hTags.tagged _ hBefore, hBefore]

omit [Fintype O] in
theorem secondTraversal_of_held
    {h : Heap O}
    {s : Tagged O jlong jlong}
    {r : Report O}
    (hTag : s.tag r.referee = heldObjectTag) :
    secondTraversal (h.arguments r s) s.user =
      (heldObjectTag, s.user, .skip) := by
  simp [secondTraversal, Heap.arguments, hTag,
    heldObjectTag]

omit [Fintype O] in
theorem secondTraversal_of_untagged
    {h : Heap O}
    {before : O → jlong}
    {s : Tagged O jlong jlong}
    {r : Report O}
    (hEnters : EntersSecond before r)
    (hTag : s.tag r.referee = 0) :
    secondTraversal (h.arguments r s) s.user =
      (heldObjectTag, s.user + h.size r.referee,
        .visit) := by
  have hJni : r.reference.kind.isJni = false := hEnters.1
  simp [secondTraversal, Heap.arguments, hTag, hJni]

/- Tagging one more object adds its size. -/
theorem taggedSize_update
    {U V : Type}
    (h : Heap O)
    {t : jlong}
    (s : Tagged O jlong U)
    {o : O}
    (v : V)
    (hTag : s.tag o ≠ t) :
    taggedSize h t ⟨Function.update s.tag o t, v⟩ =
      taggedSize h t s + h.size o := by
  have hFilter :
      Finset.univ.filter
          (fun x => Function.update s.tag o t x = t) =
        insert o
          (Finset.univ.filter (fun x => s.tag x = t)) := by
    ext x
    by_cases hEq : x = o
    · simp [hEq]
    · simp [hEq]
  unfold taggedSize
  rw [hFilter, Finset.sum_insert (by simp [hTag])]
  exact add_comm _ _

theorem SecondTags.invoke
    {h : Heap O}
    {before : O → jlong}
    {s : Tagged O jlong jlong}
    (hTags : SecondTags h before s)
    (r : Report O) :
    SecondTags h before
      (h.invoke secondTraversal r s).1 := by
  by_cases hEnters : EntersSecond before r
  · rcases hTags.others r.referee hEnters.2 with hTag | hTag
    · have hCall :=
        secondTraversal_of_untagged (h := h) hEnters hTag
      refine ⟨?_, ?_, ?_⟩
      · intro o hBefore
        have hNe : o ≠ r.referee :=
          fun hEq => hBefore (hEq ▸ hEnters.2)
        rw [Heap.invoke_tag, hCall,
          Function.update_of_ne hNe]
        exact hTags.tagged o hBefore
      · intro o hBefore
        rw [Heap.invoke_tag, hCall]
        by_cases hEq : o = r.referee
        · simp [hEq]
        · simpa [hEq] using hTags.others o hBefore
      · have hNe : s.tag r.referee ≠ heldObjectTag := by
          rw [hTag]
          decide
        have hSize :=
          taggedSize_update h s
            (s.user + h.size r.referee) hNe
        rw [← hTags.counted] at hSize
        simpa [Heap.invoke, hCall, Tagged.setTag]
          using hSize.symm
    · have hCall := secondTraversal_of_held (h := h) hTag
      have hSame :
          (h.invoke secondTraversal r s).1 = s := by
        simp [Heap.invoke, hCall, Tagged.setTag, ← hTag]
      rw [hSame]
      exact hTags
  · have hCall :=
      secondTraversal_of_not_enters (h := h) hTags hEnters
    have hSame : (h.invoke secondTraversal r s).1 = s := by
      simp [Heap.invoke, hCall, Tagged.setTag]
    rw [hSame]
    exact hTags

theorem secondTraversal_marks
    (h : Heap O)
    (before : O → jlong) :
    Worklist.Marks h.graph (h.invoke secondTraversal)
      (SecondTags h before) (EntersSecond before)
      (fun s o => s.tag o = heldObjectTag) := by
  apply h.marks_of_answers
  · exact fun r s hTags => hTags.invoke r
  · intro r s hTags hEnters
    rcases hTags.others r.referee hEnters.2 with hTag | hTag
    · simp [secondTraversal_of_untagged hEnters hTag]
    · simp [secondTraversal_of_held hTag, hTag]
  · intro r s hTags hEnters
    simp [secondTraversal_of_not_enters hTags hEnters]

/-
  After both traversals exactly the objects that the start
  object retains are tagged as held, and the counted size is
  the size of these objects.
-/
theorem estimateObjectSize_held
    {h : Heap O}
    {object : O}
    {first second : List (Report O)}
    (hFirst :
      h.FollowReferences none firstTraversal
        (tagStartObject object) first)
    (hSecond :
      h.FollowReferences (some object) secondTraversal
        ⟨(traverseHeapForTheFirstTime h object first).tag,
          0⟩ second) :
    let s := estimateObjectSize h object first second
    (∀ o, s.tag o = heldObjectTag ↔
        h.Retained (· = object) o) ∧
      s.user = taggedSize h heldObjectTag s := by
  let before :=
    (traverseHeapForTheFirstTime h object first).tag
  let walked :=
    h.followReferences (some object) secondTraversal
      ⟨before, (0 : jlong)⟩ second
  have hZero :=
    traverseHeapForTheFirstTime_tag_eq_zero_iff hFirst
  have hFirstTags :
      FirstTags object
        (traverseHeapForTheFirstTime h object first) :=
    Worklist.replay_data_invariant (FirstTags object)
      (fun s r hTags => hTags.invoke r)
      (tagStartObject_firstTags object)
  have hUnheld : ∀ o, ¬ before o = heldObjectTag := by
    intro o hTag
    by_cases hEq : o = object
    · have hStart : before o = startTag :=
        hEq ▸ hFirstTags.start
      rw [hStart] at hTag
      cases hTag
    · rcases hFirstTags.others o hEq with h' | h' <;>
        · change before o = _ at h'
          rw [h'] at hTag
          cases hTag
  have hInit :
      SecondTags h before ⟨before, (0 : jlong)⟩ := by
    refine ⟨fun _ _ => rfl, fun _ h' => Or.inl h', ?_⟩
    simp [taggedSize, hUnheld]
  have hTags : SecondTags h before walked :=
    Worklist.replay_data_invariant (SecondTags h before)
      (fun s r hTags => hTags.invoke r) hInit
  have hMarked :
      ∀ o, walked.tag o = heldObjectTag ↔
        o ≠ object ∧ h.Retained (· = object) o := by
    intro o
    rw [← h.reached_reportsOf_iff object o]
    have hIff :=
      (secondTraversal_marks h before).marked_iff_reached
        [object]
        (fun o' ho' r hr => by
          rw [List.mem_singleton] at ho'
          exact ho' ▸ hr)
        hInit hUnheld hSecond.1 o
    have hEnters :
        EntersSecond before =
          fun r : Report O =>
            r.kind.isJni = false ∧ r.referee ≠ object ∧
              ¬ h.ReachedAvoiding (· = object)
                r.referee := by
      funext r
      simp only [EntersSecond, before, hZero]
    rw [hEnters] at hIff
    exact hIff
  have hObject : walked.tag object ≠ heldObjectTag :=
    fun hTag => ((hMarked object).mp hTag).1 rfl
  constructor
  · intro o
    by_cases hEq : o = object
    · subst hEq
      simp [estimateObjectSize,
        traverseHeapFromStartObjectAndCountRetainedSize,
        Heap.retained_of_mem]
    · have hTag :
          (estimateObjectSize h object first second).tag o =
            walked.tag o := by
        simp [estimateObjectSize, walked, before,
          traverseHeapFromStartObjectAndCountRetainedSize,
          Tagged.setTag, hEq]
      rw [hTag, hMarked o]
      exact ⟨fun h' => h'.2, fun h' => ⟨hEq, h'⟩⟩
  · have hSize :=
      taggedSize_update h walked
        (walked.user + h.size object) hObject
    rw [← hTags.counted] at hSize
    exact hSize.symm

/- The total size of what an object retains. -/
open scoped Classical in
noncomputable def retainedSum
    (h : Heap O)
    (object : O) : jlong :=
  ∑ o ∈ Finset.univ.filter (h.Retained (· = object)),
    h.size o

theorem estimateObjectSize_user
    {h : Heap O}
    {object : O}
    {first second : List (Report O)}
    (hFirst :
      h.FollowReferences none firstTraversal
        (tagStartObject object) first)
    (hSecond :
      h.FollowReferences (some object) secondTraversal
        ⟨(traverseHeapForTheFirstTime h object first).tag,
          0⟩ second) :
    (estimateObjectSize h object first second).user =
      retainedSum h object := by
  classical
  have hHeld := estimateObjectSize_held hFirst hSecond
  unfold retainedSum
  rw [hHeld.2, taggedSize]
  apply Finset.sum_congr ?_ (fun _ _ => rfl)
  ext o
  rw [Finset.mem_filter, Finset.mem_filter, hHeld.1 o]

------------------------------------------------------------
-- The Result
------------------------------------------------------------

theorem heldObjectTag_ne_zero :
    heldObjectTag ≠ 0 := by
  decide

/- The action has an uninterrupted run on every heap. -/
theorem exists_uninterrupted
    (h : Heap O)
    (object : O) :
    ∃ first second heldObjects,
      Uninterrupted h object first second heldObjects := by
  have hFirstStop :
      ∀ (args : ReferenceArguments jlong) (user : Unit),
        (firstTraversal args user).2.2 ≠ .stop := by
    intro args user
    unfold firstTraversal
    split_ifs <;> simp
  have hSecondStop :
      ∀ (args : ReferenceArguments jlong) (user : jlong),
        (secondTraversal args user).2.2 ≠ .stop := by
    intro args user
    unfold secondTraversal
    split_ifs <;> simp
  rcases h.exists_followReferences none hFirstStop
      (tagStartObject object) with ⟨first, hFirst⟩
  rcases h.exists_followReferences (some object) hSecondStop
      ⟨(traverseHeapForTheFirstTime h object first).tag, 0⟩
    with ⟨second, hSecond⟩
  let s := estimateObjectSize h object first second
  refine ⟨first, second,
    (Finset.univ.filter
      (fun o => s.tag o = heldObjectTag)).toList,
    hFirst, hSecond, ?_⟩
  apply (Heap.objectsWithTags_singleton
    heldObjectTag_ne_zero).mpr
  refine ⟨Finset.nodup_toList _, ?_⟩
  intro o
  simp [s]

/-
  Every uninterrupted run returns as held objects exactly
  what the object retains, each once, and as retained size
  the size of these objects.
-/
theorem size_eq_retained
    (h : Heap O)
    (object : O) :
    (∃ first second heldObjects,
        Uninterrupted h object first second heldObjects) ∧
      ∀ first second heldObjects,
        Uninterrupted h object first second heldObjects →
          let result :=
            executeOperation h object first second
              heldObjects
          result.heldObjects.Nodup ∧
            (∀ o, o ∈ result.heldObjects ↔
              o = object ∨
                (h.Reachable object o ∧
                  ¬ h.ReachedAvoiding (· = object) o)) ∧
            result.retainedSize =
              (result.heldObjects.map h.size).sum ∧
            result.shallowSize = h.size object := by
  refine ⟨exists_uninterrupted h object, ?_⟩
  intro first second heldObjects hRun
  have hHeld :=
    estimateObjectSize_held hRun.first_complete
      hRun.second_complete
  rcases (Heap.objectsWithTags_singleton
      heldObjectTag_ne_zero).mp hRun.heldObjects_tagged with
    ⟨hNodup, hTagged⟩
  have hMem :
      ∀ o, o ∈ heldObjects ↔
        h.Retained (· = object) o :=
    fun o => (hTagged o).trans (hHeld.1 o)
  refine ⟨hNodup, ?_, ?_, rfl⟩
  · intro o
    change o ∈ heldObjects ↔ _
    rw [hMem o]
    constructor
    · rintro ⟨⟨x, rfl, hReachable⟩, hAvoid⟩
      exact Or.inr ⟨hReachable, hAvoid⟩
    · rintro (rfl | ⟨hReachable, hAvoid⟩)
      · exact Heap.retained_of_mem rfl
      · exact ⟨⟨object, rfl, hReachable⟩, hAvoid⟩
  · change (estimateObjectSize h object first second).user =
      (heldObjects.map h.size).sum
    rw [hHeld.2, taggedSize,
      ← List.sum_toFinset h.size
        hNodup]
    apply Finset.sum_congr ?_ (fun _ _ => rfl)
    ext o
    rw [Finset.mem_filter, List.mem_toFinset, hMem o,
      ← hHeld.1 o]
    simp

end RetainedSizeAndHeldObjects

end MemoryAgent
