import MemoryAgent.Jvmti.Orders
import MemoryAgent.Sizes.ViaDominatorTree.RetainedSizes

/-
  The numbers of the vertices.  The start objects come
  first, as they are listed, and then the other held objects
  in the order in which the second traversal reports them.

  Key definitions include:
    * `ViaDominatorTree.vertexObjects`
    * `ViaDominatorTree.NumberedBy`
    * `ViaDominatorTree.SecondNumbered`

  Main results:
    * `ViaDominatorTree.SecondNumbered.report`
    * `ViaDominatorTree.Traversed.numbered`
-/

------------------------------------------------------------
-- First Occurrences
------------------------------------------------------------

namespace MemoryAgent

namespace ViaDominatorTree

open StdVector DominatorTree

section Lists

variable {α β : Type}
variable [DecidableEq α] [DecidableEq β]

/- The last element adds nothing if it occurred before. -/
theorem eraseDups_concat
    (l : List α)
    (x : α) :
    (l ++ [x]).eraseDups =
      if x ∈ l then l.eraseDups else l.eraseDups ++ [x] := by
  rw [List.eraseDups_append]
  by_cases hMem : x ∈ l
  · simp [List.removeAll, hMem]
  · simp [List.removeAll, hMem, List.eraseDups_cons]

theorem nodup_eraseDups
    (l : List α) :
    l.eraseDups.Nodup := by
  induction l using List.reverseRecOn with
  | nil => exact List.nodup_nil
  | append_singleton l x ih =>
      rw [eraseDups_concat]
      split
      · exact ih
      · rename_i hNew
        apply List.nodup_append.mpr
        refine ⟨ih, List.nodup_singleton x, ?_⟩
        intro a hA b hB hEq
        rw [List.mem_singleton.mp hB] at hEq
        rw [hEq] at hA
        exact hNew (List.mem_eraseDups.mp hA)

theorem eraseDups_map
    {f : α → β}
    (hInj : Function.Injective f)
    (l : List α) :
    (l.map f).eraseDups = l.eraseDups.map f := by
  induction l using List.reverseRecOn with
  | nil => rfl
  | append_singleton l x ih =>
      have hMem : f x ∈ l.map f ↔ x ∈ l :=
        List.mem_map_of_injective hInj
      rw [List.map_append, List.map_singleton,
        eraseDups_concat, eraseDups_concat, ih]
      by_cases hOld : x ∈ l
      · rw [if_pos hOld, if_pos (hMem.mpr hOld)]
      · rw [if_neg hOld, if_neg (mt hMem.mp hOld),
          List.map_append, List.map_singleton]

end Lists

------------------------------------------------------------
-- Numbers
------------------------------------------------------------

variable {N : Type}
variable [DecidableEq N]

/-
  The held objects among the start objects and the reported
  ones, each where it occurs first.
-/
open scoped Classical in
noncomputable def vertexObjects
    (h : Heap N)
    (array : N)
    (objects : List N)
    (reports : List (Report N)) : List N :=
  ((objects ++ reports.map Report.referee).filter
    (fun o => ¬ Outside h array objects o)).eraseDups

/- Tag `k + 1` is that of element `k` of a list. -/
structure NumberedBy
    (tag : N → jlong)
    (info : HeapDumpInfo)
    (vertices : List N) : Prop where
  current : info.currentTag = vertices.length + 1
  mem_iff : ∀ o, o ∈ vertices ↔ 0 < tag o
  number : ∀ o ∈ vertices, tag o = vertices.idxOf o + 1

variable {h : Heap N}
variable {array : N}
variable {objects : List N}
variable {tag tag' before : N → jlong}
variable {info info' first : HeapDumpInfo}
variable {vertices : List N}
variable {reports : List (Report N)}
variable {r : Report N}
variable {n : Nat}
variable {o : N}

/- Other tags than the positive ones do not matter. -/
theorem NumberedBy.congr
    (hNumbered : NumberedBy tag info vertices)
    (hCurrent : info'.currentTag = info.currentTag)
    (hPos : ∀ o, 0 < tag' o ↔ 0 < tag o)
    (hSame : ∀ o, 0 < tag o → tag' o = tag o) :
    NumberedBy tag' info' vertices := by
  refine ⟨hCurrent.trans hNumbered.current, ?_, ?_⟩
  · intro o
    rw [hPos o]
    exact hNumbered.mem_iff o
  · intro o hMem
    rw [hSame o ((hNumbered.mem_iff o).mp hMem)]
    exact hNumbered.number o hMem

/- A new vertex gets the next number. -/
theorem NumberedBy.concat
    (hNumbered : NumberedBy tag info vertices)
    (hCurrent : info'.currentTag = info.currentTag + 1)
    (hNew : tag o ≤ 0) :
    NumberedBy (Function.update tag o info.currentTag) info'
      (vertices ++ [o]) := by
  have hNot : o ∉ vertices := by
    intro hMem
    exact absurd ((hNumbered.mem_iff o).mp hMem)
      (not_lt.mpr hNew)
  have hLength := hNumbered.current
  refine ⟨?_, ?_, ?_⟩
  · rw [hCurrent, hLength, List.length_append]
    rfl
  · intro p
    rw [List.mem_append, List.mem_singleton]
    by_cases hEq : p = o
    · rw [hEq, Function.update_self, hLength]
      refine iff_of_true (Or.inr rfl) ?_
      exact Int.lt_add_one_of_le (Int.natCast_nonneg _)
    · rw [Function.update_of_ne hEq, hNumbered.mem_iff p]
      exact or_iff_left hEq
  · intro p hMem
    by_cases hEq : p = o
    · rw [hEq, Function.update_self, hLength,
        List.idxOf_append_of_notMem hNot]
      simp
    · have hOld : p ∈ vertices := by
        rcases List.mem_append.mp hMem with hOld | hLast
        · exact hOld
        · exact absurd (List.mem_singleton.mp hLast) hEq
      rw [Function.update_of_ne hEq,
        List.idxOf_append_of_mem hOld]
      exact hNumbered.number p hOld

/- A report to an object with a vertex, or to one outside. -/
theorem vertexObjects_concat_same
    (hOld :
      Outside h array objects r.referee ∨
        r.referee ∈ vertexObjects h array objects reports) :
    vertexObjects h array objects (reports ++ [r]) =
      vertexObjects h array objects reports := by
  classical
  unfold vertexObjects at hOld ⊢
  rw [List.map_append, ← List.append_assoc,
    List.filter_append]
  rcases hOld with hOutside | hMem
  · simp [hOutside]
  · rw [List.mem_eraseDups] at hMem
    have hHeld : ¬ Outside h array objects r.referee :=
      of_decide_eq_true (List.mem_filter.mp hMem).2
    have hLast :
        [r.referee].filter
            (fun o => ¬ Outside h array objects o) =
          [r.referee] := by
      simp [hHeld]
    rw [List.map_singleton, hLast, eraseDups_concat,
      if_pos hMem]

theorem vertexObjects_concat_new
    (hHeld : ¬ Outside h array objects r.referee)
    (hNew :
      r.referee ∉ vertexObjects h array objects reports) :
    vertexObjects h array objects (reports ++ [r]) =
      vertexObjects h array objects reports ++
        [r.referee] := by
  classical
  unfold vertexObjects at hNew ⊢
  rw [List.mem_eraseDups] at hNew
  have hLast :
      [r.referee].filter
          (fun o => ¬ Outside h array objects o) =
        [r.referee] := by
    simp [hHeld]
  rw [List.map_append, ← List.append_assoc,
    List.filter_append, List.map_singleton, hLast,
    eraseDups_concat, if_neg hNew]

------------------------------------------------------------
-- Start Objects
------------------------------------------------------------

/- The loop over the array numbers first occurrences. -/
theorem StartLoop.numberedBy
    (objects : List N)
    {done : List N}
    {s : Tagged N jlong HeapDumpInfo}
    (hLoop : StartLoop h tag done s)
    (hTag :
      ∀ o ∈ objects, tag o = 0 ∨ tag o = objectOfClassTag)
    (hNumbered : NumberedBy s.tag s.user done.eraseDups) :
    NumberedBy (objects.foldl (initAndSetTag h) s).tag
      (objects.foldl (initAndSetTag h) s).user
      (done ++ objects).eraseDups := by
  induction objects generalizing done s with
  | nil =>
      rw [List.append_nil]
      exact hNumbered
  | cons o objects ih =>
      have hTagO := hTag o List.mem_cons_self
      have hStep :
          NumberedBy (initAndSetTag h s o).tag
            (initAndSetTag h s o).user
            (done ++ [o]).eraseDups := by
        rw [eraseDups_concat]
        by_cases hDone : o ∈ done
        · rw [hLoop.initAndSetTag_of_mem hDone, if_pos hDone]
          exact hNumbered
        · rcases hLoop.initAndSetTag_of_notMem hDone hTagO
            with ⟨hNew, hEq⟩
          rw [hEq, if_neg hDone]
          exact hNumbered.concat rfl hNew
      have hRest := ih (hLoop.step hTagO)
        (fun p hMem => hTag p (List.mem_cons_of_mem o hMem))
        hStep
      rw [List.append_assoc] at hRest
      exact hRest

theorem tagObjects_numberedBy
    (hArray : array ∉ objects)
    (hStart :
      ∀ o ∈ objects, tag o = 0 ∨ tag o = objectOfClassTag)
    (hOthers : ∀ o, o ∉ objects → tag o = 0) :
    NumberedBy (tagObjects h array objects tag).tag
      (tagObjects h array objects tag).user
      objects.eraseDups := by
  have hInit := startLoop_init (h := h) hStart hOthers
  have hNone :
      NumberedBy tag HeapDumpInfo.initial
        ([] : List N).eraseDups := by
    refine ⟨rfl, ?_, ?_⟩
    · intro o
      refine iff_of_false List.not_mem_nil (not_lt.mpr ?_)
      have hLt := hInit.vertices.lt o
      exact Int.lt_add_one_iff.mp hLt
    · intro o hMem
      exact absurd hMem List.not_mem_nil
  have hLoop := hInit.foldl objects hStart
  have hNumbered := hInit.numberedBy objects hStart hNone
  rw [List.nil_append] at hLoop hNumbered
  have hZero :
      (objects.foldl (initAndSetTag h)
        ⟨tag, HeapDumpInfo.initial⟩).tag array = 0 :=
    (hLoop.untouched array hArray).trans
      (hOthers array hArray)
  -- The tag of the array is negative.
  have hSelf :
      (tagObjects h array objects tag).tag array =
        mockReferrerTag :=
    Tagged.setTag_tag_self _ _ _
  have hOther :
      ∀ o, o ≠ array →
        (tagObjects h array objects tag).tag o =
          (objects.foldl (initAndSetTag h)
            ⟨tag, HeapDumpInfo.initial⟩).tag o :=
    fun o hNe => Tagged.setTag_tag_of_ne _ _ hNe
  refine NumberedBy.congr hNumbered ?_ ?_ ?_
  · rfl
  · intro o
    by_cases hEq : o = array
    · rw [hEq, hSelf, hZero]
      decide
    · rw [hOther o hEq]
  · intro o hPos
    apply hOther o
    intro hEq
    rw [hEq, hZero] at hPos
    exact absurd hPos (lt_irrefl _)

/- The first traversal numbers nothing. -/
theorem FirstResult.numberedBy
    {start : Tagged N jlong HeapDumpInfo}
    {visited : List Bool}
    (hFirst :
      FirstResult h array objects start
        ⟨before, .ok (firstDump start visited)⟩)
    (hNumbered : NumberedBy start.tag start.user vertices) :
    NumberedBy before (firstDump start visited) vertices := by
  refine NumberedBy.congr hNumbered ?_ ?_ ?_
  · rfl
  · intro o
    by_cases hZero : start.tag o = 0
    · rw [hZero]
      refine iff_of_false ?_ (lt_irrefl _)
      rcases hFirst.fresh o hZero with ⟨hEq, _⟩ | ⟨hEq, _⟩
      · have hBefore : before o = 0 := hEq
        rw [hBefore]
        exact lt_irrefl _
      · have hBefore : before o = visitedTag := hEq
        rw [hBefore]
        decide
    · have hBefore : before o = start.tag o :=
        hFirst.kept o hZero
      rw [hBefore]
  · intro o hPos
    exact hFirst.kept o hPos.ne'

------------------------------------------------------------
-- The Second Traversal
------------------------------------------------------------

/- A referee without tag gets the next number. -/
theorem secondTraversal_tag
    {args : ReferenceArguments jlong}
    (hKind : args.refKind.isJni = false)
    (hArray :
      args.referrerTag = some mockReferrerTag → args.tag ≠ 0)
    (hOk :
      (secondTraversal args (.ok info)).2.1 = .ok info') :
    (args.tag ≠ 0 ∧
        (secondTraversal args (.ok info)).1 = args.tag ∧
        info'.currentTag = info.currentTag) ∨
      (args.tag = 0 ∧
        (secondTraversal args (.ok info)).1 =
          info.currentTag ∧
        info'.currentTag = info.currentTag + 1) := by
  cases hReferrer : args.referrerTag with
  | none =>
      simp only [secondTraversal, hReferrer] at hOk
      cases hOk
  | some referrerTag =>
      rw [hReferrer] at hArray
      simp only [secondTraversal, hReferrer, hKind] at hOk ⊢
      by_cases hMock : referrerTag = mockReferrerTag
      · rw [if_pos hMock] at hOk ⊢
        cases hOk
        exact Or.inl ⟨hArray (congrArg some hMock), rfl, rfl⟩
      rw [if_neg hMock] at hOk ⊢
      by_cases hVisited : args.tag = visitedTag
      · rw [if_pos (Or.inl hVisited)] at hOk ⊢
        cases hOk
        refine Or.inl ⟨?_, rfl, rfl⟩
        rw [hVisited]
        decide
      have hSkip :
          ¬ (args.tag = visitedTag ∨ false = true) := by
        simp [hVisited]
      rw [if_neg hSkip] at hOk ⊢
      by_cases hZero : args.tag = 0
      · rw [if_pos hZero] at hOk ⊢
        refine Or.inr ⟨hZero, ?_⟩
        split at hOk
        · cases hOk
        · rename_i hAdd
          cases hOk
          exact ⟨rfl, addNeighbour_currentTag hAdd⟩
      · rw [if_neg hZero] at hOk ⊢
        refine Or.inl ⟨hZero, ?_⟩
        split at hOk
        · cases hOk
        · rename_i hAdd
          cases hOk
          exact ⟨rfl, addNeighbour_currentTag hAdd⟩

variable {state :
  Worklist.State N (Report N) (Tagged N jlong UserData)}

/- The data after `n` reports of the second traversal. -/
structure SecondNumbered
    (h : Heap N)
    (array : N)
    (objects : List N)
    (before : N → jlong)
    (first : HeapDumpInfo)
    (reports : List (Report N))
    (state :
      Worklist.State N (Report N) (Tagged N jlong UserData)) :
    Prop where
  invariant :
    SecondInvariant h array objects before first state
  numbered :
    ∃ info, state.data.user = .ok info ∧
      NumberedBy state.data.tag info
        (vertexObjects h array objects reports)
  referees : ∀ q ∈ reports, q.referee ≠ array

/- What has a tag is a vertex, outside, or the array. -/
theorem SecondNumbered.tag_ne_zero_iff
    (hBefore : BeforeSecond h array objects before)
    (hNumbered :
      SecondNumbered h array objects before first reports
        state)
    (hNe : o ≠ array) :
    state.data.tag o ≠ 0 ↔
      Outside h array objects o ∨
        o ∈ vertexObjects h array objects reports := by
  rcases hNumbered.numbered with ⟨info, _, hNumbers⟩
  rw [hNumbers.mem_iff o]
  have hInvariant := hNumbered.invariant
  rcases hBefore.cases hNe with
    ⟨hTag, hOutside⟩ | ⟨hTag, _, hHeld⟩ | ⟨hPos, hMem⟩
  · have hNeg : before o ≠ 0 := by
      rw [hTag]
      decide
    rw [hInvariant.kept o hNeg]
    exact iff_of_true hNeg (Or.inl hOutside)
  · have hNonneg := hInvariant.nonneg o hTag
    rw [or_iff_right hHeld]
    exact hNonneg.lt_iff_ne'.symm
  · rw [hInvariant.kept o hPos.ne']
    exact iff_of_true hPos.ne' (Or.inr hPos)

/- The array refers only to start objects. -/
theorem SecondInvariant.tag_of_element
    (hArray : IsInputArray h array objects)
    (hBefore : BeforeSecond h array objects before)
    (hInvariant :
      SecondInvariant h array objects before first state)
    (hPending : r ∈ state.pending)
    (hMock :
      (h.arguments r state.data).referrerTag =
        some mockReferrerTag) :
    (h.arguments r state.data).tag ≠ 0 := by
  rcases hInvariant.referrer hPending with
    ⟨a, hReferrer, hMem, hHolder⟩
  have hTag : state.data.tag a = mockReferrerTag := by
    simpa [Heap.arguments, hReferrer] using hMock
  have hEqA : a = array := by
    apply hHolder.resolve_right
    rw [hTag]
    decide
  have hRefers : h.Refers array r.referee :=
    ⟨r.reference, hEqA ▸ hMem, rfl⟩
  have hPos :=
    hBefore.start r.referee ((hArray.elements _).mp hRefers)
  change state.data.tag r.referee ≠ 0
  rw [hInvariant.kept _ hPos.ne']
  exact hPos.ne'

/- Every report numbers its referee, or none. -/
theorem SecondNumbered.report
    (hArray : IsInputArray h array objects)
    (hBefore : BeforeSecond h array objects before)
    (hNumbered :
      SecondNumbered h array objects before first reports
        state)
    (hPending : r ∈ state.pending) :
    SecondNumbered h array objects before first
      (reports ++ [r])
      (Worklist.report h.graph (h.invoke secondTraversal) r
        state) := by
  have hInvariant := hNumbered.invariant
  have hReport :=
    hInvariant.report hArray hBefore hPending
  rcases hInvariant.referrer hPending with
    ⟨a, _, hMem, _⟩
  have hNe :=
    hArray.unreferenced a r.referee ⟨r.reference, hMem, rfl⟩
  refine ⟨hReport, ?_, ?_⟩
  · have hSettled := hNumbered.tag_ne_zero_iff hBefore hNe
    have hKind :
        (h.arguments r state.data).refKind.isJni = false :=
      HeapReferenceKind.not_isJni_of_isHeld
        (h.references_isHeld a r.reference hMem)
    rcases hNumbered.numbered with ⟨info, hUser, hNumbers⟩
    rcases hReport.user with ⟨info', hUser', _⟩
    refine ⟨info', hUser', ?_⟩
    rw [Worklist.report_data] at hUser' ⊢
    rw [Heap.invoke_user, hUser] at hUser'
    rw [Heap.invoke_tag, hUser]
    rcases secondTraversal_tag hKind
        (hInvariant.tag_of_element hArray hBefore hPending)
        hUser' with
      ⟨hTag, hEq, hCurrent⟩ | ⟨hTag, hEq, hCurrent⟩
    · have hSame :
          (h.arguments r state.data).tag =
            state.data.tag r.referee := rfl
      rw [hEq, hSame, Function.update_eq_self,
        vertexObjects_concat_same (hSettled.mp hTag)]
      exact hNumbers.congr hCurrent (fun _ => Iff.rfl)
        (fun _ _ => rfl)
    · have hZero : state.data.tag r.referee = 0 := hTag
      rcases not_or.mp (fun hEither =>
        hSettled.mpr hEither hZero) with ⟨hHeld, hNew⟩
      rw [hEq, vertexObjects_concat_new hHeld hNew]
      exact hNumbers.concat hCurrent hZero.le
  · intro q hQ
    rcases List.mem_append.mp hQ with hOld | hLast
    · exact hNumbered.referees q hOld
    · rw [List.mem_singleton.mp hLast]
      exact hNe

/- Before the second traversal only start objects count. -/
theorem vertexObjects_nil :
    vertexObjects h array objects [] = objects.eraseDups := by
  classical
  have hAll :
      objects.filter
          (fun o => ¬ Outside h array objects o) =
        objects := by
    apply List.filter_eq_self.mpr
    intro o hMem
    exact decide_eq_true
      (fun hOutside => hOutside.not_start.1 hMem)
  unfold vertexObjects
  rw [List.map_nil, List.append_nil, hAll]

theorem traverseSecond_numbered
    (hArray : IsInputArray h array objects)
    (hBefore : BeforeSecond h array objects before)
    (hDump : Dump h before first first)
    (hStart : NumberedBy before first objects.eraseDups)
    {second : List (Report N)}
    (hSecond :
      h.FollowReferences (some array) secondTraversal
        ⟨before, .ok first⟩ second) :
    (∃ info,
      NumberedBy
        (h.followReferences (some array) secondTraversal
          ⟨before, .ok first⟩ second).tag
        info (vertexObjects h array objects second)) ∧
      ∀ q ∈ second, q.referee ≠ array := by
  have hInit :
      SecondNumbered h array objects before first
        (second.take 0)
        (h.traversal (some array) ⟨before, .ok first⟩) := by
    refine ⟨SecondInvariant.init hBefore hDump,
      ⟨first, rfl, ?_⟩, ?_⟩
    · rw [List.take_zero, vertexObjects_nil]
      exact hStart
    · intro q hQ
      exact absurd hQ List.not_mem_nil
  have hFinal :=
    Worklist.replay_steps
      (fun n =>
        SecondNumbered h array objects before first
          (second.take n))
      (fun n state r hNumbered hAt hPending => by
        rw [Heap.take_succ_of_getElem? hAt]
        exact hNumbered.report hArray hBefore hPending)
      hSecond.1.1 hInit
  rw [List.take_length] at hFinal
  rcases hFinal.numbered with ⟨info, _, hNumbers⟩
  exact ⟨⟨info, hNumbers⟩, hFinal.referees⟩

/- The tags that the two traversals leave behind. -/
theorem Traversed.numbered
    {first second : List (Report N)}
    (hArray : IsInputArray h array objects)
    (hTag :
      ∀ o ∈ objects, tag o = 0 ∨ tag o = objectOfClassTag)
    (hOthers : ∀ o, o ∉ objects → tag o = 0)
    (hTraversed :
      Traversed h array objects tag first second) :
    (∃ info,
      NumberedBy
        (traverseSecond h array
          (traverseFirst h (tagObjects h array objects tag)
            first) second).tag
        info (vertexObjects h array objects second)) ∧
      ∀ q ∈ second, q.referee ≠ array := by
  have hStart :=
    tagObjects_startTags (h := h) hArray.not_mem hTag hOthers
  rcases traverseFirst_between hStart
      hTraversed.first_complete with
    ⟨before, visited, hBetween, hFirst, _⟩
  have hComplete := hTraversed.second_complete
  rw [hBetween] at hComplete ⊢
  exact traverseSecond_numbered hArray
    (hFirst.beforeSecond hStart) (hFirst.dump hStart)
    (hFirst.numberedBy
      (tagObjects_numberedBy hArray.not_mem hTag hOthers))
    hComplete

end ViaDominatorTree

end MemoryAgent
