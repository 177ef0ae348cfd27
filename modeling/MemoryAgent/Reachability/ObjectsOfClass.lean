import MemoryAgent.Jvmti.Orders
import MemoryAgent.Roots.RecordedReferences

/-
  The objects of a class that can be reached without passing
  through a soft, weak or phantom reference.  One traversal
  tags objects as reached strongly or only weakly, by the
  tag of the referrer at the time of the report.

  Key definitions include:
    * `Reachability.findReachableObjectsOfClass`
    * `Reachability.getReachableObjectsOfClass`
    * `Reachability.StronglyReached`
    * `Reachability.ReachedInOrder`

  Main results:
    * `Reachability.Tagging.invoke`
    * `Reachability.findsExactly_iff`
-/

------------------------------------------------------------
-- The Action
------------------------------------------------------------

namespace MemoryAgent

namespace Reachability

def classTag : jlong := 1
def referenceClassTag : jlong := 2
def weakSoftReachableTag : jlong := 3
def strongReachableTag : jlong := 4
def objectOfClassTag : jlong := 5

/- The tag a reported object gets before its class counts. -/
def reachableTag
    (args : ReferenceArguments jlong) : jlong :=
  if args.classTag = referenceClassTag then
    weakSoftReachableTag
  else if args.tag = 0 then
    if args.referrerTag = some weakSoftReachableTag then
      weakSoftReachableTag
    else
      strongReachableTag
  else if args.tag = weakSoftReachableTag then
    if args.referrerTag = some weakSoftReachableTag then
      args.tag
    else
      strongReachableTag
  else
    args.tag

/- The callback; its data tells if one object is enough. -/
def findReachableObjectsOfClass :
    HeapReferenceCallback jlong Bool :=
  fun args findFirst =>
    if args.tag = referenceClassTag ∨
        args.tag = classTag then
      (args.tag, findFirst, .visit)
    else
      let tag := reachableTag args
      if args.classTag = classTag ∧
          tag = strongReachableTag then
        (objectOfClassTag, findFirst,
          if findFirst = true then .stop else .visit)
      else
        (tag, findFirst, .visit)

theorem findReachableObjectsOfClass_tag
    {args : ReferenceArguments jlong}
    (findFirst : Bool)
    (hNot :
      ¬ (args.tag = referenceClassTag ∨
        args.tag = classTag)) :
    (findReachableObjectsOfClass args findFirst).1 =
      if args.classTag = classTag ∧
          reachableTag args = strongReachableTag then
        objectOfClassTag
      else
        reachableTag args := by
  unfold findReachableObjectsOfClass
  rw [if_neg hNot]
  dsimp only
  split
  · rfl
  · rfl

section Heap

variable {O : Type}
variable [DecidableEq O]

/- `tagClassAndItsInheritors` with the tag of classes. -/
def tagClassAndItsInheritors
    {U : Type}
    (inheritors : List O)
    (s : Tagged O jlong U) : Tagged O jlong U :=
  inheritors.foldl (fun s c => s.setTag c classTag) s

/-
  The tags before the traversal.  `refClasses` are the
  loaded classes a reference class is assignable from, and
  `inheritors` those the class itself is assignable from.
-/
def initialTags
    (refClasses inheritors : List O)
    (findFirst : Bool) : Tagged O jlong Bool :=
  tagClassAndItsInheritors inheritors
    ⟨(Roots.setTagsForReferences refClasses
      referenceClassTag ⟨fun _ => 0, ()⟩).tag, findFirst⟩

/- The tags afterwards; tag 5 is then asked for. -/
def getReachableObjectsOfClass
    (h : Heap O)
    (refClasses inheritors : List O)
    (startObject : Option O)
    (findFirst : Bool)
    (reports : List (Report O)) : Tagged O jlong Bool :=
  h.followReferences startObject findReachableObjectsOfClass
    (initialTags refClasses inheritors findFirst) reports

end Heap

------------------------------------------------------------
-- Paths
------------------------------------------------------------

section Paths

variable {O : Type}

/-
  A path from the start, or from the roots, leads to the
  object, and no object on it before is an instance of a
  reference class.
-/
inductive StronglyReached
    (h : Heap O)
    (refClasses : List O)
    (startObject : Option O) : O → Prop
  | root {r : Reference O} :
      startObject = none → r ∈ h.roots →
        StronglyReached h refClasses startObject r.referee
  | start {s b : O} :
      startObject = some s → h.classOf s ∉ refClasses →
        h.Refers s b →
          StronglyReached h refClasses startObject b
  | step {a b : O} :
      StronglyReached h refClasses startObject a →
        h.classOf a ∉ refClasses → h.Refers a b →
          StronglyReached h refClasses startObject b

/- A class object that is tagged before the traversal. -/
def Marked
    (refClasses inheritors : List O)
    (o : O) : Prop :=
  o ∈ refClasses ∨ o ∈ inheritors

/-
  An object the traversal tags by its referrers: neither a
  marked class object nor, as far as the class tags tell, an
  instance of a reference class.
-/
def Ordinary
    (h : Heap O)
    (refClasses inheritors : List O)
    (o : O) : Prop :=
  ¬ Marked refClasses inheritors o ∧
    ¬ (h.classOf o ∈ refClasses ∧
      h.classOf o ∉ inheritors)

/-
  A marked class object passes strength on, and so does the
  start as long as it has not been reported itself.
-/
def orderRules
    (h : Heap O)
    (refClasses inheritors : List O)
    (startObject : Option O)
    (reports : List (Report O)) : Heap.OrderRules O where
  takes := Ordinary h refClasses inheritors
  starts := fun i a =>
    Marked refClasses inheritors a ∨
      (startObject = some a ∧
        ¬ Heap.ReportedBefore reports i a)
  guard := id
  silent := fun _ _ => True

/-
  Report `i` reaches the object along references reported
  one after another, which start at a root, at a marked
  class object or at the start as long as it has not been
  reported itself.
-/
def ReachedInOrder
    (h : Heap O)
    (refClasses inheritors : List O)
    (startObject : Option O)
    (reports : List (Report O)) : Nat → O → Prop :=
  Heap.ReachedInOrder
    (orderRules h refClasses inheritors startObject reports)
    reports

end Paths

------------------------------------------------------------
-- The Order of Reports
------------------------------------------------------------

section Orders

variable {O : Type}
variable {h : Heap O}
variable {refClasses inheritors : List O}
variable {startObject : Option O}
variable {reports : List (Report O)}
variable {n : Nat}
variable {r : Report O}
variable {o : O}

def InOrderBefore
    (h : Heap O)
    (refClasses inheritors : List O)
    (startObject : Option O)
    (reports : List (Report O)) : Nat → O → Prop :=
  Heap.InOrderBefore
    (orderRules h refClasses inheritors startObject reports)
    reports

/- Report `n` makes an ordinary referee strong. -/
def Strengthens
    (h : Heap O)
    (refClasses inheritors : List O)
    (startObject : Option O)
    (reports : List (Report O))
    (n : Nat)
    (r : Report O) : Prop :=
  ∀ a, r.referrer = some a →
    Marked refClasses inheritors a ∨
      (startObject = some a ∧
        ¬ Heap.ReportedBefore reports n a) ∨
      InOrderBefore h refClasses inheritors startObject
        reports n a

theorem passes_iff :
    Heap.Passes
        (orderRules h refClasses inheritors startObject
          reports) reports n r ↔
      Strengthens h refClasses inheritors startObject reports
        n r := by
  apply forall_congr'
  intro a
  apply imp_congr_right
  intro _
  exact Iff.trans
    (or_congr_right (and_iff_left (Or.inl trivial)))
    or_assoc

theorem inOrderBefore_succ_iff
    (hAt : reports[n]? = some r) :
    InOrderBefore h refClasses inheritors startObject
        reports (n + 1) o ↔
      InOrderBefore h refClasses inheritors startObject
          reports n o ∨
        (r.referee = o ∧
          Ordinary h refClasses inheritors o ∧
          Strengthens h refClasses inheritors startObject
            reports n r) := by
  rw [← passes_iff]
  exact Heap.inOrderBefore_succ_iff hAt

end Orders

------------------------------------------------------------
-- Tags after a Number of Reports
------------------------------------------------------------

section Tagging

variable {O : Type}
variable [DecidableEq O]
variable {h : Heap O}
variable {refClasses inheritors : List O}
variable {startObject : Option O}
variable {reports : List (Report O)}
variable {n : Nat}
variable {r : Report O}
variable {o : O}
variable {s : Tagged O jlong Bool}

/- The tag of a strongly reached object. -/
def strongTag
    (h : Heap O)
    (inheritors : List O)
    (o : O) : jlong :=
  if h.classOf o ∈ inheritors then objectOfClassTag
  else strongReachableTag

/- The tags after `n` reports. -/
structure Tagging
    (h : Heap O)
    (refClasses inheritors : List O)
    (startObject : Option O)
    (reports : List (Report O))
    (n : Nat)
    (s : Tagged O jlong Bool) : Prop where
  user : s.user = false
  inheritor : ∀ o ∈ inheritors, s.tag o = classTag
  reference :
    ∀ o ∈ refClasses, o ∉ inheritors →
      s.tag o = referenceClassTag
  strong :
    ∀ o, ¬ Marked refClasses inheritors o →
      InOrderBefore h refClasses inheritors startObject
          reports n o →
        s.tag o = strongTag h inheritors o
  weak :
    ∀ o, ¬ Marked refClasses inheritors o →
      ¬ InOrderBefore h refClasses inheritors startObject
          reports n o →
        Heap.ReportedBefore reports n o →
          s.tag o = weakSoftReachableTag
  fresh :
    ∀ o, ¬ Marked refClasses inheritors o →
      ¬ Heap.ReportedBefore reports n o → s.tag o = 0

theorem strongTag_ne
    (h : Heap O)
    (inheritors : List O)
    (o : O) :
    strongTag h inheritors o ≠ 0 ∧
      strongTag h inheritors o ≠ classTag ∧
      strongTag h inheritors o ≠ referenceClassTag ∧
      strongTag h inheritors o ≠ weakSoftReachableTag := by
  unfold strongTag
  split
  · decide
  · decide

variable
  (hTagging :
    Tagging h refClasses inheritors startObject reports n s)
include hTagging

theorem Tagging.unmarked
    (hMarked : ¬ Marked refClasses inheritors o) :
    s.tag o ≠ classTag ∧ s.tag o ≠ referenceClassTag := by
  by_cases hReached :
      InOrderBefore h refClasses inheritors startObject
        reports n o
  · rw [hTagging.strong o hMarked hReached]
    exact ⟨(strongTag_ne h inheritors o).2.1,
      (strongTag_ne h inheritors o).2.2.1⟩
  · by_cases hReported : Heap.ReportedBefore reports n o
    · rw [hTagging.weak o hMarked hReached hReported]
      decide
    · rw [hTagging.fresh o hMarked hReported]
      decide

/- The tags of classes tell what they are. -/
theorem Tagging.class_iff :
    s.tag o = classTag ↔ o ∈ inheritors := by
  constructor
  · intro hTag
    by_contra hNot
    by_cases hRef : o ∈ refClasses
    · rw [hTagging.reference o hRef hNot] at hTag
      exact absurd hTag (by decide)
    · exact (hTagging.unmarked
        (fun hMarked => hMarked.elim hRef hNot)).1 hTag
  · exact hTagging.inheritor o

theorem Tagging.referenceClass_iff :
    s.tag o = referenceClassTag ↔
      o ∈ refClasses ∧ o ∉ inheritors := by
  constructor
  · intro hTag
    have hNot : o ∉ inheritors := by
      intro hMem
      rw [hTagging.inheritor o hMem] at hTag
      exact absurd hTag (by decide)
    refine ⟨?_, hNot⟩
    by_contra hRef
    exact (hTagging.unmarked
      (fun hMarked => hMarked.elim hRef hNot)).2 hTag
  · intro hBoth
    exact hTagging.reference o hBoth.1 hBoth.2

theorem Tagging.marked_iff :
    Marked refClasses inheritors o ↔
      s.tag o = referenceClassTag ∨ s.tag o = classTag := by
  rw [hTagging.class_iff, hTagging.referenceClass_iff]
  unfold Marked
  by_cases hMem : o ∈ inheritors
  · simp [hMem]
  · simp [hMem]

/- A referrer makes its referee strong unless it is weak. -/
theorem Tagging.strengthens_iff
    (hHeld : Heap.Held h startObject reports n r) :
    Strengthens h refClasses inheritors startObject reports n
        r ↔
      r.referrer.map s.tag ≠ some weakSoftReachableTag := by
  cases hReferrer : r.referrer with
  | none =>
      refine iff_of_true ?_ (Option.some_ne_none _).symm
      intro a hSome
      rw [hReferrer] at hSome
      cases hSome
  | some a =>
      rw [Option.map_some, ne_eq, Option.some_inj]
      have hOnly :
          Strengthens h refClasses inheritors startObject
              reports n r ↔
            Marked refClasses inheritors a ∨
              (startObject = some a ∧
                ¬ Heap.ReportedBefore reports n a) ∨
              InOrderBefore h refClasses inheritors
                startObject reports n a := by
        constructor
        · exact fun hAll => hAll a hReferrer
        · intro hA b hSome
          rw [hReferrer] at hSome
          cases hSome
          exact hA
      rw [hOnly]
      by_cases hMarked : Marked refClasses inheritors a
      · refine iff_of_true (Or.inl hMarked) ?_
        rcases hTagging.marked_iff.mp hMarked with
          hTag | hTag
        · rw [hTag]
          decide
        · rw [hTag]
          decide
      · by_cases hReached :
          InOrderBefore h refClasses inheritors startObject
            reports n a
        · refine iff_of_true (Or.inr (Or.inr hReached)) ?_
          rw [hTagging.strong a hMarked hReached]
          exact (strongTag_ne h inheritors a).2.2.2
        · by_cases hReported :
            Heap.ReportedBefore reports n a
          · refine iff_of_false ?_ ?_
            · rintro (hNot | ⟨_, hNot⟩ | hNot)
              · exact hMarked hNot
              · exact hNot hReported
              · exact hReached hNot
            · rw [hTagging.weak a hMarked hReached
                hReported]
              exact fun hNe => hNe rfl
          · have hStart :=
              (hHeld.referrer hReferrer).resolve_right hReported
            refine iff_of_true
              (Or.inr (Or.inl ⟨hStart, hReported⟩)) ?_
            rw [hTagging.fresh a hMarked hReported]
            decide

/- A referee that was reached in order keeps its tag. -/
theorem Tagging.reachableTag_of_reached
    (hMarked : ¬ Marked refClasses inheritors r.referee)
    (hRef :
      s.tag (h.classOf r.referee) ≠ referenceClassTag)
    (hReached :
      InOrderBefore h refClasses inheritors startObject
        reports n r.referee) :
    reachableTag (h.arguments r s) =
      strongTag h inheritors r.referee := by
  have hTag : (h.arguments r s).tag = s.tag r.referee := rfl
  have hClass :
      (h.arguments r s).classTag =
        s.tag (h.classOf r.referee) := rfl
  have hNe := strongTag_ne h inheritors r.referee
  unfold reachableTag
  rw [hClass, hTag,
    hTagging.strong r.referee hMarked hReached, if_neg hRef,
    if_neg hNe.1, if_neg hNe.2.2.2]

open Classical in
/- Another one is tagged after its referrer. -/
theorem Tagging.reachableTag_of_not_reached
    (hHeld : Heap.Held h startObject reports n r)
    (hMarked : ¬ Marked refClasses inheritors r.referee)
    (hRef :
      s.tag (h.classOf r.referee) ≠ referenceClassTag)
    (hReached :
      ¬ InOrderBefore h refClasses inheritors startObject
        reports n r.referee) :
    reachableTag (h.arguments r s) =
      if Strengthens h refClasses inheritors startObject
          reports n r then
        strongReachableTag
      else
        weakSoftReachableTag := by
  have hTag : (h.arguments r s).tag = s.tag r.referee := rfl
  have hReferrer :
      (h.arguments r s).referrerTag =
        r.referrer.map s.tag := rfl
  have hClass :
      (h.arguments r s).classTag =
        s.tag (h.classOf r.referee) := rfl
  have hStrengthens := hTagging.strengthens_iff hHeld
  have hOld :
      s.tag r.referee = 0 ∨
        s.tag r.referee = weakSoftReachableTag := by
    by_cases hReported :
        Heap.ReportedBefore reports n r.referee
    · exact Or.inr (hTagging.weak r.referee hMarked
        hReached hReported)
    · exact Or.inl
        (hTagging.fresh r.referee hMarked hReported)
  unfold reachableTag
  rw [hClass, hTag, hReferrer, if_neg hRef]
  by_cases hWeak :
      r.referrer.map s.tag = some weakSoftReachableTag
  · rw [if_neg (fun hS => hStrengthens.mp hS hWeak),
      if_pos hWeak]
    rcases hOld with hZero | hThree
    · rw [hZero, if_pos rfl]
    · rw [hThree, if_neg (by decide), if_pos rfl,
        if_pos hWeak]
  · rw [if_pos (hStrengthens.mpr hWeak), if_neg hWeak]
    rcases hOld with hZero | hThree
    · rw [hZero, if_pos rfl]
    · rw [hThree, if_neg (by decide), if_pos rfl,
        if_neg hWeak]

open Classical in
/- What the callback writes to an unmarked referee. -/
theorem Tagging.answer
    (hHeld : Heap.Held h startObject reports n r)
    (hMarked : ¬ Marked refClasses inheritors r.referee) :
    (findReachableObjectsOfClass (h.arguments r s)
        s.user).1 =
      if InOrderBefore h refClasses inheritors startObject
            reports n r.referee ∨
          (Ordinary h refClasses inheritors r.referee ∧
            Strengthens h refClasses inheritors startObject
              reports n r) then
        strongTag h inheritors r.referee
      else
        weakSoftReachableTag := by
  have hTag : (h.arguments r s).tag = s.tag r.referee := rfl
  have hClass :
      (h.arguments r s).classTag =
        s.tag (h.classOf r.referee) := rfl
  have hClassIff :=
    hTagging.class_iff (o := h.classOf r.referee)
  have hReferenceIff :=
    hTagging.referenceClass_iff (o := h.classOf r.referee)
  have hNot :
      ¬ (s.tag r.referee = referenceClassTag ∨
        s.tag r.referee = classTag) := by
    rw [← hTagging.marked_iff]
    exact hMarked
  rw [← hTag] at hNot
  rw [findReachableObjectsOfClass_tag s.user hNot, hClass]
  by_cases hRef :
      h.classOf r.referee ∈ refClasses ∧
        h.classOf r.referee ∉ inheritors
  · have hNever :
        ¬ Ordinary h refClasses inheritors r.referee :=
      fun hOrdinary => hOrdinary.2 hRef
    have hNotReached :
        ¬ (InOrderBefore h refClasses inheritors startObject
              reports n r.referee ∨
            (Ordinary h refClasses inheritors r.referee ∧
              Strengthens h refClasses inheritors
                startObject reports n r)) := by
      rintro (⟨i, _, hReached⟩ | ⟨hOrdinary, _⟩)
      · exact hNever hReached.takes
      · exact hNever hOrdinary
    have hWeak :
        reachableTag (h.arguments r s) =
          weakSoftReachableTag := by
      unfold reachableTag
      rw [hClass, if_pos (hReferenceIff.mpr hRef)]
    have hNotStrong :
        ¬ (s.tag (h.classOf r.referee) = classTag ∧
          weakSoftReachableTag = strongReachableTag) :=
      fun hBoth => absurd hBoth.2 (by decide)
    rw [hWeak, if_neg hNotStrong, if_neg hNotReached]
  · have hOrdinary :
        Ordinary h refClasses inheritors r.referee :=
      ⟨hMarked, hRef⟩
    have hRefTag :
        s.tag (h.classOf r.referee) ≠ referenceClassTag :=
      fun hEq => hRef (hReferenceIff.mp hEq)
    by_cases hReached :
        InOrderBefore h refClasses inheritors startObject
          reports n r.referee
    · rw [if_pos (Or.inl hReached),
        hTagging.reachableTag_of_reached hMarked hRefTag
          hReached]
      by_cases hBoth :
          s.tag (h.classOf r.referee) = classTag ∧
            strongTag h inheritors r.referee =
              strongReachableTag
      · rw [if_pos hBoth]
        unfold strongTag
        rw [if_pos (hClassIff.mp hBoth.1)]
      · rw [if_neg hBoth]
    · rw [hTagging.reachableTag_of_not_reached hHeld hMarked
        hRefTag hReached]
      by_cases hStrong :
          Strengthens h refClasses inheritors startObject
            reports n r
      · rw [if_pos hStrong,
          if_pos (Or.inr ⟨hOrdinary, hStrong⟩)]
        unfold strongTag
        by_cases hMem : h.classOf r.referee ∈ inheritors
        · rw [if_pos ⟨hClassIff.mpr hMem, rfl⟩,
            if_pos hMem]
        · rw [if_neg (fun hBoth =>
            hMem (hClassIff.mp hBoth.1)), if_neg hMem]
      · have hNotStrong :
            ¬ (s.tag (h.classOf r.referee) = classTag ∧
              weakSoftReachableTag = strongReachableTag) :=
          fun hBoth => absurd hBoth.2 (by decide)
        have hNever :
            ¬ (InOrderBefore h refClasses inheritors
                  startObject reports n r.referee ∨
                (Ordinary h refClasses inheritors
                    r.referee ∧
                  Strengthens h refClasses inheritors
                    startObject reports n r)) :=
          fun hEither => hEither.elim hReached
            (fun hBoth => hStrong hBoth.2)
        rw [if_neg hStrong, if_neg hNotStrong,
          if_neg hNever]

open Classical in
/- Every report keeps the tags as they should be. -/
theorem Tagging.invoke
    (hAt : reports[n]? = some r)
    (hHeld : Heap.Held h startObject reports n r) :
    Tagging h refClasses inheritors startObject reports
        (n + 1)
        (h.invoke findReachableObjectsOfClass r s).1 := by
  have hUser :
      ∀ args : ReferenceArguments jlong, ∀ b,
        (findReachableObjectsOfClass args b).2.1 = b := by
    intro args b
    unfold findReachableObjectsOfClass
    dsimp only
    split
    · rfl
    · split
      · rfl
      · rfl
  have hMarkedTag :
      ∀ o, Marked refClasses inheritors o →
        (h.invoke findReachableObjectsOfClass r s).1.tag o =
          s.tag o := by
    intro o hMarked
    rw [Heap.invoke_tag]
    by_cases hEq : o = r.referee
    · rw [hEq, Function.update_self]
      rw [hEq] at hMarked
      unfold findReachableObjectsOfClass
      have hTag :
          (h.arguments r s).tag = s.tag r.referee := rfl
      rw [if_pos]
      · exact hTag
      · rw [hTag]
        exact hTagging.marked_iff.mp hMarked
    · rw [Function.update_of_ne hEq]
  have hOther :
      ∀ o, o ≠ r.referee →
        (h.invoke findReachableObjectsOfClass r s).1.tag o =
          s.tag o := by
    intro o hNe
    rw [Heap.invoke_tag, Function.update_of_ne hNe]
  have hSelf :
      ¬ Marked refClasses inheritors r.referee →
        (h.invoke findReachableObjectsOfClass r s).1.tag
            r.referee =
          if InOrderBefore h refClasses inheritors
              startObject reports (n + 1) r.referee then
            strongTag h inheritors r.referee
          else
            weakSoftReachableTag := by
    intro hMarked
    rw [Heap.invoke_tag, Function.update_self,
      hTagging.answer hHeld hMarked]
    have hIff :
        (InOrderBefore h refClasses inheritors startObject
              reports n r.referee ∨
            (Ordinary h refClasses inheritors r.referee ∧
              Strengthens h refClasses inheritors
                startObject reports n r)) ↔
          InOrderBefore h refClasses inheritors startObject
            reports (n + 1) r.referee := by
      rw [inOrderBefore_succ_iff hAt]
      exact or_congr_right (and_iff_right rfl).symm
    simp only [hIff]
  constructor
  · rw [Heap.invoke_user, hUser]
    exact hTagging.user
  · intro o hMem
    rw [hMarkedTag o (Or.inr hMem)]
    exact hTagging.inheritor o hMem
  · intro o hMem hNot
    rw [hMarkedTag o (Or.inl hMem)]
    exact hTagging.reference o hMem hNot
  · intro o hMarked hReached
    by_cases hEq : o = r.referee
    · rw [hEq] at hMarked hReached ⊢
      rw [hSelf hMarked, if_pos hReached]
    · rw [hOther o hEq]
      apply hTagging.strong o hMarked
      rcases (inOrderBefore_succ_iff hAt).mp hReached with
        hOld | ⟨hNew, _⟩
      · exact hOld
      · exact absurd hNew.symm hEq
  · intro o hMarked hReached hReported
    by_cases hEq : o = r.referee
    · rw [hEq] at hMarked hReached ⊢
      rw [hSelf hMarked, if_neg hReached]
    · rw [hOther o hEq]
      apply hTagging.weak o hMarked
      · intro hOld
        exact hReached
          ((inOrderBefore_succ_iff hAt).mpr (Or.inl hOld))
      · rcases (Heap.reportedBefore_succ_iff hAt).mp
          hReported with hOld | hNew
        · exact hOld
        · exact absurd hNew.symm hEq
  · intro o hMarked hReported
    have hNot :=
      fun hNew => hReported
        ((Heap.reportedBefore_succ_iff hAt).mpr hNew)
    rw [hOther o (fun hEq => hNot (Or.inr hEq.symm))]
    exact hTagging.fresh o hMarked
      (fun hOld => hNot (Or.inl hOld))

end Tagging

------------------------------------------------------------
-- The Result
------------------------------------------------------------

section Result

variable {O : Type}
variable [DecidableEq O]
variable {h : Heap O}
variable {refClasses inheritors : List O}
variable {startObject : Option O}
variable {reports : List (Report O)}

theorem tagClassAndItsInheritors_tag
    {U : Type}
    (s : Tagged O jlong U)
    (o : O) :
    (tagClassAndItsInheritors inheritors s).tag o =
      if o ∈ inheritors then classTag else s.tag o := by
  unfold tagClassAndItsInheritors
  induction inheritors generalizing s with
  | nil => rfl
  | cons c inheritors ih =>
      rw [List.foldl_cons, ih]
      by_cases hRest : o ∈ inheritors
      · simp [hRest]
      · by_cases hEq : o = c
        · simp [hEq]
        · simp [hRest, hEq, Tagged.setTag]

theorem tagClassAndItsInheritors_user
    {U : Type}
    (s : Tagged O jlong U) :
    (tagClassAndItsInheritors inheritors s).user =
      s.user := by
  unfold tagClassAndItsInheritors
  induction inheritors generalizing s with
  | nil => rfl
  | cons c inheritors ih =>
      rw [List.foldl_cons, ih, Tagged.setTag_user]

omit [DecidableEq O] in
theorem not_inOrderBefore_zero
    {o : O} :
    ¬ InOrderBefore h refClasses inheritors startObject
        reports 0 o := by
  rintro ⟨i, hLt, _⟩
  exact absurd hLt (Nat.not_lt_zero i)

theorem initialTags_tag
    (findFirst : Bool)
    (o : O) :
    (initialTags refClasses inheritors findFirst).tag o =
      if o ∈ inheritors then classTag
      else if o ∈ refClasses then referenceClassTag
      else 0 := by
  unfold initialTags
  rw [tagClassAndItsInheritors_tag]
  dsimp only
  rw [Roots.setTagsForReferences_tag]

theorem tagging_initialTags :
    Tagging h refClasses inheritors startObject reports 0
      (initialTags refClasses inheritors false) := by
  constructor
  · exact tagClassAndItsInheritors_user _
  · intro o hMem
    rw [initialTags_tag, if_pos hMem]
  · intro o hMem hNot
    rw [initialTags_tag, if_neg hNot, if_pos hMem]
  · intro o _ hReached
    exact absurd hReached not_inOrderBefore_zero
  · intro o _ _ hReported
    exact absurd hReported Heap.not_reportedBefore_zero
  · intro o hMarked _
    rw [initialTags_tag, if_neg (fun hMem => hMarked (Or.inr hMem)),
      if_neg (fun hMem => hMarked (Or.inl hMem))]

/- The tags when the traversal is complete. -/
theorem tagging_getReachableObjectsOfClass
    (hReports :
      h.FollowReferences startObject
        findReachableObjectsOfClass
        (initialTags refClasses inheritors false)
        reports) :
    Tagging h refClasses inheritors startObject reports
      reports.length
      (getReachableObjectsOfClass h refClasses inheritors
        startObject false reports) := by
  apply Heap.followReferences_steps
    (Tagging h refClasses inheritors startObject reports)
  · intro n s r hTagging _
    rw [Heap.invoke_signal, hTagging.user]
    unfold findReachableObjectsOfClass
    split
    · exact Worklist.Signal.noConfusion
    · dsimp only
      split
      · exact Worklist.Signal.noConfusion
      · exact Worklist.Signal.noConfusion
  · intro n s r hTagging hAt hHeld
    exact hTagging.invoke hAt hHeld
  · exact hReports
  · exact tagging_initialTags

/- An unmarked object is returned if it was reached. -/
theorem objectOfClassTag_iff
    {s : Tagged O jlong Bool}
    {n : Nat}
    {o : O}
    (hTagging :
      Tagging h refClasses inheritors startObject reports n
        s)
    (hMarked : ¬ Marked refClasses inheritors o) :
    s.tag o = objectOfClassTag ↔
      h.classOf o ∈ inheritors ∧
        InOrderBefore h refClasses inheritors startObject
          reports n o := by
  by_cases hReached :
      InOrderBefore h refClasses inheritors startObject
        reports n o
  · rw [hTagging.strong o hMarked hReached]
    unfold strongTag
    by_cases hMem : h.classOf o ∈ inheritors
    · rw [if_pos hMem]
      exact iff_of_true rfl ⟨hMem, hReached⟩
    · rw [if_neg hMem]
      refine iff_of_false (by decide) ?_
      exact fun hBoth => hMem hBoth.1
  · refine iff_of_false ?_ (fun hBoth => hReached hBoth.2)
    by_cases hReported : Heap.ReportedBefore reports n o
    · rw [hTagging.weak o hMarked hReached hReported]
      decide
    · rw [hTagging.fresh o hMarked hReported]
      decide

/-
  The result is right exactly if the instances of the class
  that some path without reference objects reaches are those
  that references reported one after another reach.
-/
theorem findsExactly_iff
    [Fintype O]
    (h : Heap O)
    (refClasses inheritors : List O)
    (startObject : Option O)
    (reports : List (Report O))
    (hClasses :
      ∀ c, Marked refClasses inheritors c →
        h.classOf c ∉ inheritors)
    (hReports :
      h.FollowReferences startObject
        findReachableObjectsOfClass
        (initialTags refClasses inheritors false)
        reports) :
    (∀ objects,
      Heap.ObjectsWithTags
          (getReachableObjectsOfClass h refClasses inheritors
            startObject false reports)
          [objectOfClassTag] objects →
        objects.Nodup ∧
          ∀ o, o ∈ objects ↔
            h.classOf o ∈ inheritors ∧
              StronglyReached h refClasses startObject o) ↔
      ∀ o, h.classOf o ∈ inheritors →
        (StronglyReached h refClasses startObject o ↔
          ∃ i, ReachedInOrder h refClasses inheritors
            startObject reports i o) := by
  have hTagging :=
    tagging_getReachableObjectsOfClass hReports
  have hReturned :
      ∀ o,
        (getReachableObjectsOfClass h refClasses inheritors
            startObject false reports).tag o =
          objectOfClassTag ↔
        h.classOf o ∈ inheritors ∧
          ∃ i, ReachedInOrder h refClasses inheritors
            startObject reports i o := by
    intro o
    by_cases hMarked : Marked refClasses inheritors o
    · refine iff_of_false ?_
        (fun hBoth => hClasses o hMarked hBoth.1)
      rcases hTagging.marked_iff.mp hMarked with hTag | hTag
      · rw [hTag]
        decide
      · rw [hTag]
        decide
    · rw [objectOfClassTag_iff hTagging hMarked]
      exact and_congr_right
        (fun _ => Heap.inOrderBefore_length_iff)
  have hNe : objectOfClassTag ≠ 0 := by
    decide
  constructor
  · intro hAll o hMem
    let objects :=
      (Finset.univ.filter (fun o =>
        (getReachableObjectsOfClass h refClasses inheritors
          startObject false reports).tag o =
            objectOfClassTag)).toList
    have hObjects :
        Heap.ObjectsWithTags
          (getReachableObjectsOfClass h refClasses inheritors
            startObject false reports)
          [objectOfClassTag] objects := by
      rw [Heap.objectsWithTags_singleton hNe]
      refine ⟨Finset.nodup_toList _, fun o => ?_⟩
      rw [Finset.mem_toList, Finset.mem_filter]
      exact and_iff_right (Finset.mem_univ o)
    have hBoth := (hAll objects hObjects).2 o
    rw [((Heap.objectsWithTags_singleton hNe).mp
      hObjects).2 o, hReturned] at hBoth
    rw [and_iff_right hMem, and_iff_right hMem] at hBoth
    exact hBoth.symm
  · intro hSame objects hObjects
    have hSingle :=
      (Heap.objectsWithTags_singleton hNe).mp hObjects
    refine ⟨hSingle.1, fun o => ?_⟩
    rw [hSingle.2 o, hReturned]
    apply and_congr_right
    intro hMem
    exact (hSame o hMem).symm

end Result

/-
  A root refers to the weak reference 0 and to object 1, and
  both refer to object 2, which refers to object 3 of the
  class 4.  The class objects 5 and 6 are those of the weak
  reference and of `java.lang.Class`.
-/
def lateHeap : Heap (Fin 8) where
  roots := [⟨.stackLocal, .none, 0⟩,
    ⟨.stackLocal, .none, 1⟩]
  references := fun o =>
    if o = 0 then [⟨.field, .none, 2⟩]
    else if o = 1 then [⟨.field, .none, 2⟩]
    else if o = 2 then [⟨.field, .none, 3⟩]
    else []
  size := fun _ => 16
  classOf := fun o =>
    if o = 0 then 5
    else if o = 1 ∨ o = 2 then 7
    else if o = 3 then 4
    else 6
  roots_isRoot := by decide
  references_isHeld := by decide
  size_pos := by decide

/- Object 3 is reported while object 2 is still weak. -/
def lateReports : List (Report (Fin 8)) :=
  [⟨none, .stackLocal, .none, 0⟩,
    ⟨none, .stackLocal, .none, 1⟩,
    ⟨some 0, .field, .none, 2⟩,
    ⟨some 2, .field, .none, 3⟩,
    ⟨some 1, .field, .none, 2⟩]

theorem findsExactly_iff_late :
    (∀ objects,
      Heap.ObjectsWithTags
          (getReachableObjectsOfClass lateHeap [5] [4] none
            false lateReports)
          [objectOfClassTag] objects →
        objects.Nodup ∧
          ∀ o, o ∈ objects ↔
            lateHeap.classOf o ∈ [4] ∧
              StronglyReached lateHeap [5] none o) ↔
      ∀ o, lateHeap.classOf o ∈ [4] →
        (StronglyReached lateHeap [5] none o ↔
          ∃ i, ReachedInOrder lateHeap [5] [4] none
            lateReports i o) :=
  findsExactly_iff lateHeap [5] [4] none lateReports
    (by unfold Marked; decide) (by decide)

/- Object 3 is not returned. -/
theorem not_findsExactly :
    ¬ ∀ (h : Heap (Fin 8))
        (refClasses inheritors : List (Fin 8))
        (startObject : Option (Fin 8))
        (reports : List (Report (Fin 8))),
      (∀ c, Marked refClasses inheritors c →
          h.classOf c ∉ inheritors ∧
            h.classOf c ∉ refClasses) →
        (∀ c, c ∉ refClasses ∨ c ∉ inheritors) →
          h.FollowReferences startObject
              findReachableObjectsOfClass
              (initialTags refClasses inheritors false)
              reports →
            ∀ objects,
              Heap.ObjectsWithTags
                  (getReachableObjectsOfClass h refClasses
                    inheritors startObject false reports)
                  [objectOfClassTag] objects →
                ∀ o, o ∈ objects ↔
                  h.classOf o ∈ inheritors ∧
                    StronglyReached h refClasses startObject
                      o := by
  intro hAll
  have hSame :=
    hAll lateHeap [5] [4] none lateReports
      (by unfold Marked; decide) (by decide) (by decide) []
      (by decide) 3
  have hPath : StronglyReached lateHeap [5] none 3 :=
    .step
      (.step
        (.root (r := ⟨.stackLocal, .none, 1⟩) rfl
          (by decide))
        (by decide) ⟨⟨.field, .none, 2⟩, by decide, rfl⟩)
      (by decide) ⟨⟨.field, .none, 3⟩, by decide, rfl⟩
  exact absurd (hSame.mpr ⟨by decide, hPath⟩)
    List.not_mem_nil

end Reachability

end MemoryAgent
