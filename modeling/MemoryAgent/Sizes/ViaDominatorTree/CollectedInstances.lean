import MemoryAgent.Jvmti.Orders
import MemoryAgent.Sizes.ViaDominatorTree.ByClass

/-
  The instances of a class that `collectObjects` tags.  The
  class object is told apart by its tag; where it is its own
  instance, the callback overwrites this tag.

  Key definitions include:
    * `RetainedSizesByClassAction.Visited`
    * `RetainedSizesByClassAction.Overwritten`
    * `RetainedSizesByClassAction.FoundBefore`
    * `RetainedSizesByClassAction.Collecting`

  Main results:
    * `RetainedSizesByClassAction.Collecting.report`
    * `RetainedSizesByClassAction.collected_exactly_iff`
-/

------------------------------------------------------------
-- Visited Objects
------------------------------------------------------------

namespace MemoryAgent

namespace ViaDominatorTree

namespace RetainedSizesByClassAction

variable {O : Type}
variable {h : Heap O}
variable {classRef : O}
variable {reports : List (Report O)}
variable {n : Nat}
variable {r : Report O}
variable {o : O}

/- Reported by one of `n` references that are not JNI ones. -/
def Visited
    (reports : List (Report O))
    (n : Nat)
    (o : O) : Prop :=
  ∃ i, i < n ∧ ∃ r, reports[i]? = some r ∧
    r.referee = o ∧ r.kind.isJni = false

/- The class object is its own instance and was visited. -/
def Overwritten
    (h : Heap O)
    (classRef : O)
    (reports : List (Report O))
    (n : Nat) : Prop :=
  h.classOf classRef = classRef ∧
    Visited reports n classRef

/- An instance that was visited while the tag was there. -/
def FoundBefore
    (h : Heap O)
    (classRef : O)
    (reports : List (Report O))
    (n : Nat)
    (o : O) : Prop :=
  h.classOf o = classRef ∧
    ∃ i, i < n ∧ ∃ r, reports[i]? = some r ∧
      r.referee = o ∧ r.kind.isJni = false ∧
        ¬ Overwritten h classRef reports i

theorem visited_succ_iff
    (hAt : reports[n]? = some r) :
    Visited reports (n + 1) o ↔
      Visited reports n o ∨
        (r.referee = o ∧ r.kind.isJni = false) := by
  constructor
  · rintro ⟨i, hLt, q, hQ, hRest⟩
    rcases Nat.lt_succ_iff_lt_or_eq.mp hLt with hOld | hEq
    · exact Or.inl ⟨i, hOld, q, hQ, hRest⟩
    · rw [hEq, hAt] at hQ
      rw [Option.some.inj hQ]
      exact Or.inr hRest
  · rintro (⟨i, hLt, hRest⟩ | hNew)
    · exact ⟨i, Nat.lt_succ_of_lt hLt, hRest⟩
    · exact ⟨n, Nat.lt_succ_self n, r, hAt, hNew⟩

theorem overwritten_succ_iff
    (hAt : reports[n]? = some r)
    (hKind : r.kind.isJni = false) :
    Overwritten h classRef reports (n + 1) ↔
      Overwritten h classRef reports n ∨
        (h.classOf classRef = classRef ∧
          r.referee = classRef) := by
  unfold Overwritten
  rw [visited_succ_iff hAt, hKind, and_or_left]
  simp

theorem foundBefore_succ_iff
    (hAt : reports[n]? = some r) :
    FoundBefore h classRef reports (n + 1) o ↔
      FoundBefore h classRef reports n o ∨
        (h.classOf o = classRef ∧ r.referee = o ∧
          r.kind.isJni = false ∧
            ¬ Overwritten h classRef reports n) := by
  constructor
  · rintro ⟨hClass, i, hLt, q, hQ, hRest⟩
    rcases Nat.lt_succ_iff_lt_or_eq.mp hLt with hOld | hEq
    · exact Or.inl ⟨hClass, i, hOld, q, hQ, hRest⟩
    · rw [hEq, hAt] at hQ
      rw [hEq] at hRest
      rw [Option.some.inj hQ]
      exact Or.inr ⟨hClass, hRest⟩
  · rintro (⟨hClass, i, hLt, hRest⟩ | ⟨hClass, hNew⟩)
    · exact ⟨hClass, i, Nat.lt_succ_of_lt hLt, hRest⟩
    · exact ⟨hClass, n, Nat.lt_succ_self n, r, hAt, hNew⟩

theorem visited_succ_of_jni
    (hAt : reports[n]? = some r)
    (hKind : r.kind.isJni = true) :
    Visited reports (n + 1) o ↔ Visited reports n o := by
  rw [visited_succ_iff hAt, hKind]
  simp

theorem foundBefore_succ_of_jni
    (hAt : reports[n]? = some r)
    (hKind : r.kind.isJni = true) :
    FoundBefore h classRef reports (n + 1) o ↔
      FoundBefore h classRef reports n o := by
  rw [foundBefore_succ_iff hAt, hKind]
  simp

------------------------------------------------------------
-- Tags after a Number of Reports
------------------------------------------------------------

variable [DecidableEq O]

/-
  The state after `n` reports: who carries which tag, that
  the visited objects are reachable from the roots, and that
  their references are reported or pending.
-/
structure Collecting
    (h : Heap O)
    (classRef : O)
    (reports : List (Report O))
    (n : Nat)
    (state :
      Worklist.State O (Report O) (Tagged O jlong Unit)) :
    Prop where
  marker :
    ∀ o, state.data.tag o = classTag ↔
      o = classRef ∧ ¬ Overwritten h classRef reports n
  found :
    ∀ o, state.data.tag o = objectOfClassTag ↔
      FoundBefore h classRef reports n o
  expanded :
    ∀ o, o ∈ state.expanded ↔ Visited reports n o
  reachable : ∀ o ∈ state.expanded, h.RootReachable o
  pending :
    ∀ r ∈ state.pending, r.kind.isJni = false →
      h.RootReachable r.referee
  roots :
    ∀ r ∈ h.rootReports, r.kind.isJni = false →
      r ∈ state.pending ∨ r.referee ∈ state.expanded
  out :
    ∀ o ∈ state.expanded, ∀ r ∈ h.reportsOf o,
      r ∈ state.pending ∨ r.referee ∈ state.expanded

variable
  {state : Worklist.State O (Report O) (Tagged O jlong Unit)}

theorem Collecting.init :
    Collecting h classRef reports 0
      (h.traversal none (tagClass classRef)) := by
  have hNone : ∀ o, ¬ Visited reports 0 o := by
    rintro o ⟨i, hLt, _⟩
    exact absurd hLt (Nat.not_lt_zero i)
  have hTag :
      ∀ o, (h.traversal none (tagClass classRef)).data.tag o =
        if o = classRef then classTag else 0 := by
    intro o
    change (tagClass classRef).tag o = _
    split
    · next hEq =>
        rw [hEq]
        exact Tagged.setTag_tag_self _ _ _
    · next hNe => exact Tagged.setTag_tag_of_ne _ _ hNe
  refine ⟨?_, ?_, ?_, ?_, CollectInvariant.init.pending, ?_,
    ?_⟩
  · intro o
    rw [hTag]
    have hNot : ¬ Overwritten h classRef reports 0 :=
      fun hBoth => hNone classRef hBoth.2
    by_cases hEq : o = classRef
    · simp [hEq, hNot]
    · simp [hEq, classTag]
  · intro o
    rw [hTag]
    refine iff_of_false ?_ ?_
    · split
      · decide
      · decide
    · rintro ⟨_, i, hLt, _⟩
      exact absurd hLt (Nat.not_lt_zero i)
  · intro o
    exact iff_of_false List.not_mem_nil (hNone o)
  · intro o hMem
    exact absurd hMem List.not_mem_nil
  · intro r hMem _
    exact Or.inl hMem
  · intro o hMem
    exact absurd hMem List.not_mem_nil

/- A JNI reference changes nothing. -/
theorem Collecting.report_jni
    (hCollecting :
      Collecting h classRef reports n state)
    (hAt : reports[n]? = some r)
    (hKind : r.kind.isJni = true) :
    Collecting h classRef reports (n + 1)
      (Worklist.report h.graph (h.invoke collectObjects) r
        state) := by
  have hAnswer :
      collectObjects (h.arguments r state.data)
          state.data.user =
        (state.data.tag r.referee, state.data.user, .skip) :=
    if_pos hKind
  have hData :
      (h.invoke collectObjects r state.data).1.tag =
        state.data.tag := by
    rw [Heap.invoke_tag, hAnswer]
    exact Function.update_eq_self _ _
  have hSignal :
      (h.invoke collectObjects r state.data).2 = .skip := by
    rw [Heap.invoke_signal, hAnswer]
  have hOver :
      Overwritten h classRef reports (n + 1) ↔
        Overwritten h classRef reports n := by
    unfold Overwritten
    rw [visited_succ_of_jni hAt hKind]
  have hErase :
      ∀ q, q.kind.isJni = false →
        q ∈ state.pending → q ∈ state.pending.erase r := by
    intro q hQ hMem
    apply (List.mem_erase_of_ne ?_).mpr hMem
    intro hEq
    rw [hEq, hKind] at hQ
    cases hQ
  rw [Worklist.report_of_skip hSignal]
  refine ⟨?_, ?_, ?_, hCollecting.reachable, ?_, ?_, ?_⟩
  · intro o
    rw [hData, hOver]
    exact hCollecting.marker o
  · intro o
    rw [hData, foundBefore_succ_of_jni hAt hKind]
    exact hCollecting.found o
  · intro o
    rw [visited_succ_of_jni hAt hKind]
    exact hCollecting.expanded o
  · exact fun q hMem =>
      hCollecting.pending q (List.mem_of_mem_erase hMem)
  · exact fun q hMem hQ =>
      (hCollecting.roots q hMem hQ).imp_left (hErase q hQ)
  · intro o hO q hMem
    have hHeld := ((h.mem_reportsOf_iff o q).mp hMem).2
    have hQ :=
      HeapReferenceKind.not_isJni_of_isHeld
        (h.references_isHeld o q.reference hHeld)
    exact (hCollecting.out o hO q hMem).imp_left
      (hErase q hQ)

/- The tag of an object whose class is tagged or not. -/
def tagAtVisit
    (h : Heap O)
    (r : Report O)
    (tag : O → jlong) : jlong :=
  if tag (h.classOf r.referee) = classTag then
    objectOfClassTag
  else
    tag r.referee

theorem invoke_collectObjects
    (data : Tagged O jlong Unit)
    (hKind : r.kind.isJni = false) :
    (h.invoke collectObjects r data).1.tag =
        Function.update data.tag r.referee
          (tagAtVisit h r data.tag) ∧
      (h.invoke collectObjects r data).2 = .visit := by
  have hArgs : (h.arguments r data).refKind.isJni = false :=
    hKind
  have hAnswer :
      collectObjects (h.arguments r data) data.user =
        (tagAtVisit h r data.tag, data.user, .visit) := by
    unfold collectObjects tagAtVisit
    rw [hArgs, if_neg Bool.false_ne_true]
    change
      (if data.tag (h.classOf r.referee) = classTag then _
        else _) = _
    split
    · rfl
    · rfl
  rw [Heap.invoke_tag, Heap.invoke_signal, hAnswer]
  exact ⟨rfl, rfl⟩

/- The tag of the class object is lost when it is visited. -/
theorem Collecting.marker_visit
    (hCollecting : Collecting h classRef reports n state)
    (hAt : reports[n]? = some r)
    (hKind : r.kind.isJni = false)
    (o : O) :
    Function.update state.data.tag r.referee
          (tagAtVisit h r state.data.tag) o = classTag ↔
      o = classRef ∧
        ¬ Overwritten h classRef reports (n + 1) := by
  have hMarked := hCollecting.marker (h.classOf r.referee)
  unfold tagAtVisit
  rw [overwritten_succ_iff hAt hKind]
  by_cases hEq : o = r.referee
  · rw [hEq, Function.update_self]
    by_cases hMark :
        state.data.tag (h.classOf r.referee) = classTag
    · rw [if_pos hMark]
      refine iff_of_false (by decide) ?_
      rintro ⟨hClass, hNot⟩
      apply hNot
      rw [hClass] at hMarked
      exact Or.inr ⟨(hMarked.mp (hClass ▸ hMark)).1, hClass⟩
    · rw [if_neg hMark, hCollecting.marker, not_or]
      constructor
      · rintro ⟨hClass, hNot⟩
        refine ⟨hClass, hNot, ?_⟩
        rintro ⟨hSelf, _⟩
        apply hMark
        rw [hMarked, hClass]
        exact ⟨hSelf, hNot⟩
      · exact fun hBoth => ⟨hBoth.1, hBoth.2.1⟩
  · rw [Function.update_of_ne hEq, hCollecting.marker,
      not_or]
    constructor
    · rintro ⟨hClass, hNot⟩
      refine ⟨hClass, hNot, ?_⟩
      rintro ⟨_, hReferee⟩
      exact hEq (hClass.trans hReferee.symm)
    · exact fun hBoth => ⟨hBoth.1, hBoth.2.1⟩

/- An instance is found if the class is still tagged. -/
theorem Collecting.found_visit
    (hCollecting : Collecting h classRef reports n state)
    (hAt : reports[n]? = some r)
    (hKind : r.kind.isJni = false)
    (o : O) :
    Function.update state.data.tag r.referee
          (tagAtVisit h r state.data.tag) o =
        objectOfClassTag ↔
      FoundBefore h classRef reports (n + 1) o := by
  have hMarked := hCollecting.marker (h.classOf r.referee)
  unfold tagAtVisit
  rw [foundBefore_succ_iff hAt, hKind]
  by_cases hEq : o = r.referee
  · rw [hEq, Function.update_self]
    by_cases hMark :
        state.data.tag (h.classOf r.referee) = classTag
    · rw [if_pos hMark]
      rcases hMarked.mp hMark with ⟨hClass, hNot⟩
      exact iff_of_true rfl
        (Or.inr ⟨hClass, rfl, rfl, hNot⟩)
    · rw [if_neg hMark, hCollecting.found]
      constructor
      · exact Or.inl
      · rintro (hOld | ⟨hClass, _, _, hNot⟩)
        · exact hOld
        · exact absurd (hMarked.mpr ⟨hClass, hNot⟩) hMark
  · rw [Function.update_of_ne hEq, hCollecting.found]
    constructor
    · exact Or.inl
    · rintro (hOld | ⟨_, hReferee, _⟩)
      · exact hOld
      · exact absurd hReferee.symm hEq

/- Another reference visits its referee. -/
theorem Collecting.report_visit
    (hCollecting :
      Collecting h classRef reports n state)
    (hAt : reports[n]? = some r)
    (hPending : r ∈ state.pending)
    (hKind : r.kind.isJni = false) :
    Collecting h classRef reports (n + 1)
      (Worklist.report h.graph (h.invoke collectObjects) r
        state) := by
  rcases invoke_collectObjects (h := h) state.data hKind with
    ⟨hData, hSignal⟩
  have hStop :
      (h.invoke collectObjects r state.data).2 ≠ .stop := by
    rw [hSignal]
    exact Worklist.Signal.noConfusion
  have hExpanded :
      ∀ o,
        o ∈ (Worklist.report h.graph
            (h.invoke collectObjects) r state).expanded ↔
          o ∈ state.expanded ∨ o = r.referee := by
    intro o
    rw [Worklist.mem_expanded_report, hSignal]
    exact or_congr_right
      ⟨And.right, fun hEq => ⟨rfl, hEq⟩⟩
  have hRoot := hCollecting.pending r hPending hKind
  have hSettle :
      ∀ q,
        q ∈ state.pending ∨ q.referee ∈ state.expanded →
          q ∈ (Worklist.report h.graph
              (h.invoke collectObjects) r state).pending ∨
            q.referee ∈ (Worklist.report h.graph
              (h.invoke collectObjects) r
                state).expanded := by
    intro q hQ
    rw [hExpanded]
    rcases hQ with hOld | hOld
    · by_cases hEq : q = r
      · rw [hEq]
        exact Or.inr (Or.inr rfl)
      · exact Or.inl
          (Worklist.mem_pending_report_of_ne hStop hOld hEq)
    · exact Or.inr (Or.inl hOld)
  refine ⟨?_, ?_, ?_, ?_, ?_, ?_, ?_⟩
  · intro o
    rw [Worklist.report_data, hData]
    exact hCollecting.marker_visit hAt hKind o
  · intro o
    rw [Worklist.report_data, hData]
    exact hCollecting.found_visit hAt hKind o
  · intro o
    rw [hExpanded, hCollecting.expanded,
      visited_succ_iff hAt, hKind]
    simp [eq_comm]
  · intro o hMem
    rcases (hExpanded o).mp hMem with hOld | hEq
    · exact hCollecting.reachable o hOld
    · rw [hEq]
      exact hRoot
  · intro q hMem hQ
    rcases Worklist.pending_of_mem_report hMem with
      hOld | hOut
    · exact hCollecting.pending q hOld hQ
    · exact rootReachable_of_reportsOf hRoot hOut
  · intro q hMem hQ
    exact hSettle q (hCollecting.roots q hMem hQ)
  · intro o hMem q hQ
    by_cases hOld : o ∈ state.expanded
    · exact hSettle q (hCollecting.out o hOld q hQ)
    · have hEq := ((hExpanded o).mp hMem).resolve_left hOld
      rw [hEq] at hOld hQ
      exact Or.inl
        (Worklist.mem_pending_report_of_out hSignal hOld hQ)

theorem Collecting.report
    (hCollecting :
      Collecting h classRef reports n state)
    (hAt : reports[n]? = some r)
    (hPending : r ∈ state.pending) :
    Collecting h classRef reports (n + 1)
      (Worklist.report h.graph (h.invoke collectObjects) r
        state) := by
  cases hKind : r.kind.isJni with
  | true => exact hCollecting.report_jni hAt hKind
  | false =>
      exact hCollecting.report_visit hAt hPending hKind

------------------------------------------------------------
-- Collected Instances
------------------------------------------------------------

/- After the traversal the visited objects are known. -/
theorem collected_found
    {collect : List (Report O)}
    (hCollect :
      h.FollowReferences none collectObjects
        (tagClass classRef) collect) :
    (∀ o,
      (collected h classRef collect).tag o =
          objectOfClassTag ↔
        FoundBefore h classRef collect collect.length o) ∧
      ∀ o, Visited collect collect.length o ↔
        h.RootReachable o := by
  have hFinal :=
    Worklist.replay_steps
      (Collecting h classRef collect)
      (fun _ _ _ hCollecting hAt hPending =>
        hCollecting.report hAt hPending)
      hCollect.1.1 Collecting.init
  have hNone := hCollect.1.2
  refine ⟨hFinal.found, ?_⟩
  intro o
  rw [← hFinal.expanded]
  constructor
  · exact hFinal.reachable o
  · intro hRoot
    induction hRoot with
    | @root x hMem hKind _ =>
        have hRoots :=
          hFinal.roots ⟨none, x⟩
            ((h.mem_rootReports_iff _).mpr ⟨rfl, hMem⟩)
            hKind
        rw [hNone] at hRoots
        exact hRoots.resolve_left List.not_mem_nil
    | @step a b _ hRefers _ ih =>
        rcases hRefers with ⟨x, hMem, hEq⟩
        have hOut :=
          hFinal.out a ih ⟨some a, x⟩
            ((h.mem_reportsOf_iff _ _).mpr ⟨rfl, hMem⟩)
        rw [hNone] at hOut
        rw [← hEq]
        exact hOut.resolve_left List.not_mem_nil

/-
  The instances are collected exactly unless the class is
  its own instance and some reachable instance is visited
  only after the class object itself.
-/
theorem collected_exactly_iff
    {O : Type}
    [DecidableEq O]
    (h : Heap O)
    (classRef : O)
    (collect : List (Report O))
    (hCollect :
      h.FollowReferences none collectObjects
        (tagClass classRef) collect) :
    (∀ o,
      (collected h classRef collect).tag o =
          objectOfClassTag ↔
        h.classOf o = classRef ∧ h.RootReachable o) ↔
      (h.classOf classRef = classRef →
        ∀ o, h.classOf o = classRef → h.RootReachable o →
          ∃ i r, collect[i]? = some r ∧ r.referee = o ∧
            r.kind.isJni = false ∧
              ¬ Visited collect i classRef) := by
  rcases collected_found hCollect with ⟨hFound, hVisited⟩
  have hEither :
      ∀ o,
        FoundBefore h classRef collect collect.length o ↔
          h.classOf o = classRef ∧
            ∃ i r, collect[i]? = some r ∧ r.referee = o ∧
              r.kind.isJni = false ∧
                ¬ Overwritten h classRef collect i := by
    intro o
    refine and_congr_right fun _ => ?_
    constructor
    · rintro ⟨i, _, r, hRest⟩
      exact ⟨i, r, hRest⟩
    · rintro ⟨i, r, hAt, hRest⟩
      exact ⟨i, (List.getElem?_eq_some_iff.mp hAt).1, r,
        hAt, hRest⟩
  constructor
  · intro hExact hSelf o hClass hRoot
    have hTag := (hExact o).mpr ⟨hClass, hRoot⟩
    rw [hFound, hEither] at hTag
    rcases hTag.2 with ⟨i, r, hAt, hEq, hKind, hNot⟩
    exact ⟨i, r, hAt, hEq, hKind,
      fun hBefore => hNot ⟨hSelf, hBefore⟩⟩
  · intro hKept o
    rw [hFound, hEither]
    refine and_congr_right fun hClass => ?_
    rw [← hVisited]
    constructor
    · rintro ⟨i, r, hAt, hEq, hKind, _⟩
      exact ⟨i, (List.getElem?_eq_some_iff.mp hAt).1, r,
        hAt, hEq, hKind⟩
    · intro hBefore
      by_cases hSelf : h.classOf classRef = classRef
      · rcases hKept hSelf o hClass ((hVisited o).mp hBefore)
          with ⟨i, r, hAt, hEq, hKind, hNot⟩
        exact ⟨i, r, hAt, hEq, hKind,
          fun hOver => hNot hOver.2⟩
      · rcases hBefore with ⟨i, _, r, hAt, hEq, hKind⟩
        exact ⟨i, r, hAt, hEq, hKind,
          fun hOver => hSelf hOver.1⟩

/-
  Roots refer to the class object of `java.lang.Class` and
  to another class object.
-/
def classesHeap : Heap Bool where
  roots := [⟨.systemClass, .none, false⟩,
    ⟨.systemClass, .none, true⟩]
  references := fun _ => []
  size := fun _ => 16
  classOf := fun _ => false
  roots_isRoot := by decide
  references_isHeld := no_references_isHeld
  size_pos := fun _ => sixteen_pos

/- The other class object is reported first. -/
theorem collected_exactly_iff_last :
    let collect :=
      [⟨none, .systemClass, .none, true⟩,
        ⟨none, .systemClass, .none, false⟩]
    (∀ o,
      (collected classesHeap false collect).tag o =
          objectOfClassTag ↔
        classesHeap.classOf o = false ∧
          classesHeap.RootReachable o) ↔
      (classesHeap.classOf false = false →
        ∀ o, classesHeap.classOf o = false →
          classesHeap.RootReachable o →
            ∃ i r, collect[i]? = some r ∧ r.referee = o ∧
              r.kind.isJni = false ∧
                ¬ Visited collect i false) :=
  collected_exactly_iff classesHeap false _ (by decide)

/- The other class object is reported second. -/
theorem not_collected_exactly :
    ¬ ∀ (h : Heap Bool) (classRef : Bool)
        (collect : List (Report Bool)),
      h.FollowReferences none collectObjects
          (tagClass classRef) collect →
        ∀ o,
          (collected h classRef collect).tag o =
              objectOfClassTag ↔
            h.classOf o = classRef ∧ h.RootReachable o := by
  intro hExact
  have hSame :=
    hExact classesHeap false
      [⟨none, .systemClass, .none, false⟩,
        ⟨none, .systemClass, .none, true⟩] (by decide) true
  have hRoot : classesHeap.RootReachable true :=
    .root (r := ⟨.systemClass, .none, true⟩) (by decide)
      rfl id
  exact absurd (hSame.mpr ⟨rfl, hRoot⟩) (by decide)

end RetainedSizesByClassAction

end ViaDominatorTree

end MemoryAgent
