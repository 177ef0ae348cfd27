import MemoryAgent.Sizes.ViaDominatorTree.Vertices

/-
  The first traversal marks what the roots reach around the
  start objects, and finds the start objects next to it.

  Key definitions include:
    * `ViaDominatorTree.IsInputArray`
    * `ViaDominatorTree.Outside`
    * `ViaDominatorTree.Hit`
    * `ViaDominatorTree.FirstInvariant`
    * `ViaDominatorTree.FirstResult`

  Main results:
    * `ViaDominatorTree.FirstInvariant.report`
    * `ViaDominatorTree.traverseFirst_result`
-/

------------------------------------------------------------
-- Objects Outside
------------------------------------------------------------

namespace MemoryAgent

namespace ViaDominatorTree

open StdVector DominatorTree

variable {N : Type}

/-
  The array leads to the start objects, and no object leads
  to the array.
-/
structure IsInputArray
    (h : Heap N)
    (array : N)
    (objects : List N) : Prop where
  unreferenced : ∀ o b, h.Refers o b → b ≠ array
  elements : ∀ b, h.Refers array b ↔ b ∈ objects

theorem IsInputArray.not_mem
    {h : Heap N}
    {array : N}
    {objects : List N}
    (hArray : IsInputArray h array objects) :
    array ∉ objects := by
  intro hMem
  exact hArray.unreferenced array array
    ((hArray.elements array).mpr hMem) rfl

/-
  The objects that the roots reach around the start objects
  and the array.
-/
def Outside
    (h : Heap N)
    (array : N)
    (objects : List N) : N → Prop :=
  h.ReachedAvoiding (fun o => o ∈ objects ∨ o = array)

/- A root, or an object outside, refers to the object. -/
def Hit
    (h : Heap N)
    (array : N)
    (objects : List N)
    (o : N) : Prop :=
  (∃ r ∈ h.roots, r.kind.isJni = false ∧ r.referee = o) ∨
    ∃ a, Outside h array objects a ∧ h.Refers a o

theorem Outside.not_start
    {h : Heap N}
    {array : N}
    {objects : List N}
    {o : N}
    (hOutside : Outside h array objects o) :
    o ∉ objects ∧ o ≠ array :=
  not_or.mp
    (Heap.ReachedAvoiding.not_mem
      (X := fun x => x ∈ objects ∨ x = array) hOutside)

/- What is hit and no start object is outside itself. -/
theorem Hit.outside
    {h : Heap N}
    {array : N}
    {objects : List N}
    {o : N}
    (hHit : Hit h array objects o)
    (hNot : o ∉ objects)
    (hNe : o ≠ array) :
    Outside h array objects o := by
  have hAvoid : ¬ (o ∈ objects ∨ o = array) :=
    not_or.mpr ⟨hNot, hNe⟩
  rcases hHit with
    ⟨r, hMem, hKind, hEq⟩ | ⟨a, hOutside, hRefers⟩
  · rw [← hEq] at hAvoid ⊢
    exact Heap.ReachedAvoiding.root hMem hKind hAvoid
  · exact Heap.ReachedAvoiding.step hOutside hRefers hAvoid

------------------------------------------------------------
-- Invariant
------------------------------------------------------------

variable [DecidableEq N]

/- Whether the user data has a start tag as visited. -/
def StartVisited
    (user : UserData)
    (tag : jlong) : Prop :=
  ∃ info, user = .ok info ∧
    read info.wasVisitedDuringFirstTraversal tag = some true

/- What a report leaves behind for its referee. -/
def FirstDone
    (before : N → jlong)
    (r : Report N)
    (s : Tagged N jlong UserData) : Prop :=
  r.kind.isJni = false →
    (before r.referee = 0 → s.tag r.referee = visitedTag) ∧
      (0 < before r.referee →
        StartVisited s.user (before r.referee))

/-
  The state during the first traversal: the untagged objects
  found so far are outside, and the start objects visited so
  far are hit.
-/
structure FirstInvariant
    (h : Heap N)
    (array : N)
    (objects : List N)
    (start : Tagged N jlong HeapDumpInfo)
    (state :
      Worklist.State N (Report N) (Tagged N jlong UserData)) :
    Prop where
  user :
    ∃ visited : List Bool,
      state.data.user =
          .ok { start.user with
            wasVisitedDuringFirstTraversal := visited } ∧
        visited.length = start.user.graph.length
  visited_hit :
    ∀ o, 0 < start.tag o →
      StartVisited state.data.user (start.tag o) →
        Hit h array objects o
  kept :
    ∀ o, start.tag o ≠ 0 → state.data.tag o = start.tag o
  fresh :
    ∀ o, start.tag o = 0 →
      state.data.tag o = 0 ∨ state.data.tag o = visitedTag
  outside :
    ∀ o, start.tag o = 0 →
      state.data.tag o = visitedTag →
        Outside h array objects o ∧ o ∈ state.expanded
  expanded :
    ∀ o ∈ state.expanded, Outside h array objects o
  tracked :
    Worklist.Tracked h.graph h.rootReports
      (FirstDone start.tag) state

section First

variable {h : Heap N}
variable {array : N}
variable {objects : List N}
variable {start : Tagged N jlong HeapDumpInfo}
variable {state :
  Worklist.State N (Report N) (Tagged N jlong UserData)}
variable {r : Report N}

omit [DecidableEq N] in
/- The kinds of objects by their tags before the pass. -/
theorem StartTags.tag_cases
    (hStart : StartTags h array objects start)
    (o : N) :
    (start.tag o = 0 ∧ o ∉ objects ∧ o ≠ array) ∨
      (0 < start.tag o ∧ o ∈ objects ∧ o ≠ array) ∨
      (start.tag o = mockReferrerTag ∧ o = array) := by
  by_cases hEq : o = array
  · rw [hEq]
    exact Or.inr (Or.inr ⟨hStart.array_tag, rfl⟩)
  · by_cases hMem : o ∈ objects
    · exact Or.inr
        (Or.inl ⟨hStart.start o hMem, hMem, hEq⟩)
    · exact Or.inl ⟨hStart.others o hMem hEq, hMem, hEq⟩

omit [DecidableEq N] in
/- A pending report other than a JNI root hits its referee. -/
theorem FirstInvariant.hit
    (hInvariant :
      FirstInvariant h array objects start state)
    (hPending : r ∈ state.pending)
    (hKind : r.kind.isJni = false) :
    Hit h array objects r.referee := by
  rcases hInvariant.tracked.pending_known r hPending with
    hRoot | ⟨a, hExpanded, hOut⟩
  · exact Or.inl ⟨r.reference,
      ((h.mem_rootReports_iff r).mp hRoot).2, hKind, rfl⟩
  · exact Or.inr ⟨a, hInvariant.expanded a hExpanded,
      r.reference, ((h.mem_reportsOf_iff a r).mp hOut).2,
      rfl⟩

/- The answer of the callback, by the kind of the referee. -/
theorem FirstInvariant.answer
    (hStart : StartTags h array objects start)
    (hInvariant :
      FirstInvariant h array objects start state)
    {visited : List Bool}
    (hUser :
      state.data.user =
        .ok { start.user with
          wasVisitedDuringFirstTraversal := visited })
    (hLength : visited.length = start.user.graph.length) :
    firstTraversal (h.arguments r state.data)
        state.data.user =
      if r.kind.isJni then
        (state.data.tag r.referee, state.data.user, .skip)
      else if start.tag r.referee = 0 then
        (visitedTag, state.data.user,
          if state.data.tag r.referee = 0 then .visit
          else .skip)
      else if 0 < start.tag r.referee then
        (start.tag r.referee,
          .ok { start.user with
            wasVisitedDuringFirstTraversal :=
              visited.set (start.tag r.referee).toNat true },
          .skip)
      else
        (start.tag r.referee, state.data.user, .skip) := by
  have hLast := hStart.last
  have hCurrent := hStart.vertices.current
  have hPos := hStart.vertices.pos
  rw [hUser]
  by_cases hKind : r.kind.isJni = true
  · simp [firstTraversal, Heap.arguments, hKind]
  have hKind' : r.reference.kind.isJni = false := by
    simpa using hKind
  rcases hStart.tag_cases r.referee with
    ⟨hZero, _, _⟩ | ⟨hTag, _, _⟩ | ⟨hTag, _⟩
  · rcases hInvariant.fresh r.referee hZero with
      hTag | hTag
    · simp [firstTraversal, Heap.arguments, hKind', hZero,
        hTag]
    · have hLe : (-1 : Int) ≤ start.user.lastStartTag := by
        rw [hLast, hCurrent]
        omega
      simp [firstTraversal, Heap.arguments, hKind', hZero,
        hTag, visitedTag, hLe]
  · have hKept :=
      hInvariant.kept r.referee hTag.ne'
    have hLt := hStart.vertices.lt r.referee
    have hLe :
        start.tag r.reference.referee ≤
          start.user.lastStartTag := by
      rw [hLast]
      exact Int.le_sub_one_of_lt hLt
    have hRange :
        InRange visited.length
          (start.tag r.reference.referee) := by
      constructor
      · exact hTag.le
      · rw [hLength, ← hCurrent]
        exact hLt
    simp [firstTraversal, Heap.arguments, hKind', hKept,
      hTag, hTag.ne', hLe, visitStartVertex_eq, hRange]
  · have hNe : start.tag r.referee ≠ 0 := by
      rw [hTag]
      decide
    have hKept := hInvariant.kept r.referee hNe
    have hLe : (-2 : Int) ≤ start.user.lastStartTag := by
      rw [hLast, hCurrent]
      omega
    simp [firstTraversal, Heap.arguments, hKind', hKept,
      hTag, mockReferrerTag, hLe]

------------------------------------------------------------
-- Reports
------------------------------------------------------------

/- The data of the traversal after an answer. -/
theorem invoke_data
    {callback : HeapReferenceCallback jlong UserData}
    {s : Tagged N jlong UserData}
    {tag : jlong}
    {user : UserData}
    {signal : Worklist.Signal}
    (hAnswer :
      callback (h.arguments r s) s.user =
        (tag, user, signal)) :
    (h.invoke callback r s).1 =
        ⟨Function.update s.tag r.referee tag, user⟩ ∧
      (h.invoke callback r s).2 = signal := by
  constructor
  · simp [Heap.invoke, hAnswer, Tagged.setTag]
  · simp [hAnswer]

/- A report that changes nothing. -/
theorem FirstInvariant.report_same
    (hInvariant :
      FirstInvariant h array objects start state)
    (hPending : r ∈ state.pending)
    (hAnswer :
      firstTraversal (h.arguments r state.data)
          state.data.user =
        (state.data.tag r.referee, state.data.user, .skip))
    (hDone : FirstDone start.tag r state.data) :
    FirstInvariant h array objects start
      (Worklist.report h.graph (h.invoke firstTraversal) r
        state) := by
  rcases invoke_data hAnswer with ⟨hData, hSignal⟩
  rw [Function.update_eq_self] at hData
  have hSame :
      (h.invoke firstTraversal r state.data).1 =
        state.data := hData
  have hData' :
      (Worklist.report h.graph (h.invoke firstTraversal) r
        state).data = state.data := by
    rw [Worklist.report_data, hSame]
  have hExpanded :
      ∀ o, o ∈ (Worklist.report h.graph
          (h.invoke firstTraversal) r state).expanded ↔
        o ∈ state.expanded := by
    intro o
    rw [Worklist.mem_expanded_report, hSignal]
    simp
  constructor
  · rw [hData']
    exact hInvariant.user
  · rw [hData']
    exact hInvariant.visited_hit
  · rw [hData']
    exact hInvariant.kept
  · rw [hData']
    exact hInvariant.fresh
  · intro o hZero hTag
    rw [hData'] at hTag
    rcases hInvariant.outside o hZero hTag with
      ⟨hOutside, hMem⟩
    exact ⟨hOutside, (hExpanded o).mpr hMem⟩
  · intro o hMem
    exact hInvariant.expanded o ((hExpanded o).mp hMem)
  · apply hInvariant.tracked.report hPending
    · rw [hSignal]
      exact Worklist.Signal.noConfusion
    · rw [hSame]
      exact hDone
    · intro other hOther
      rw [hSame]
      exact hOther

/- A report that marks its referee as visited. -/
theorem FirstInvariant.report_fresh
    (hInvariant :
      FirstInvariant h array objects start state)
    (hPending : r ∈ state.pending)
    (hZero : start.tag r.referee = 0)
    (hOutside : Outside h array objects r.referee)
    (hAnswer :
      firstTraversal (h.arguments r state.data)
          state.data.user =
        (visitedTag, state.data.user,
          if state.data.tag r.referee = 0 then .visit
          else .skip)) :
    FirstInvariant h array objects start
      (Worklist.report h.graph (h.invoke firstTraversal) r
        state) := by
  rcases invoke_data hAnswer with ⟨hData, hSignal⟩
  have hData' :
      (Worklist.report h.graph (h.invoke firstTraversal) r
        state).data =
        ⟨Function.update state.data.tag r.referee visitedTag,
          state.data.user⟩ := by
    rw [Worklist.report_data, hData]
  have hTag :
      ∀ o, o ≠ r.referee →
        Function.update state.data.tag r.referee visitedTag
          o = state.data.tag o :=
    fun o hNe => Function.update_of_ne hNe _ _
  constructor
  · rw [hData']
    exact hInvariant.user
  · rw [hData']
    exact hInvariant.visited_hit
  · intro o hKept
    have hNe : o ≠ r.referee := by
      intro hEq
      rw [hEq] at hKept
      exact hKept hZero
    rw [hData']
    exact (hTag o hNe).trans (hInvariant.kept o hKept)
  · intro o hZeroO
    rw [hData']
    by_cases hEq : o = r.referee
    · rw [hEq]
      exact Or.inr (Function.update_self _ _ _)
    · change Function.update state.data.tag r.referee
          visitedTag o = 0 ∨
        Function.update state.data.tag r.referee
          visitedTag o = visitedTag
      rw [hTag o hEq]
      exact hInvariant.fresh o hZeroO
  · intro o hZeroO hTagO
    rw [hData'] at hTagO
    rw [Worklist.mem_expanded_report, hSignal]
    by_cases hEq : o = r.referee
    · rw [hEq]
      refine ⟨hOutside, ?_⟩
      rcases hInvariant.fresh r.referee hZero with
        hNew | hOld
      · exact Or.inr ⟨if_pos hNew, rfl⟩
      · exact Or.inl
          (hInvariant.outside r.referee hZero hOld).2
    · have hOldTag := (hTag o hEq).symm.trans hTagO
      rcases hInvariant.outside o hZeroO hOldTag with
        ⟨hOut, hMem⟩
      exact ⟨hOut, Or.inl hMem⟩
  · intro o hMem
    rw [Worklist.mem_expanded_report] at hMem
    rcases hMem with hOld | ⟨_, hEq⟩
    · exact hInvariant.expanded o hOld
    · rw [hEq]
      exact hOutside
  · apply hInvariant.tracked.report hPending
    · rw [hSignal]
      split
      · exact Worklist.Signal.noConfusion
      · exact Worklist.Signal.noConfusion
    · rw [hData]
      intro _
      refine ⟨fun _ => Function.update_self _ _ _, ?_⟩
      intro hPos
      rw [hZero] at hPos
      exact absurd hPos (lt_irrefl _)
    · intro other hOther
      rw [hData]
      intro hKind
      rcases hOther hKind with ⟨hFresh, hVisited⟩
      refine ⟨?_, hVisited⟩
      intro hZeroO
      by_cases hEq : other.referee = r.referee
      · rw [hEq]
        exact Function.update_self _ _ _
      · exact (hTag _ hEq).trans (hFresh hZeroO)

/- Setting one element visits one more start tag. -/
theorem startVisited_set
    {info : HeapDumpInfo}
    {visited : List Bool}
    {k tag : jlong}
    (hRange : InRange visited.length k) :
    StartVisited
        (.ok { info with
          wasVisitedDuringFirstTraversal :=
            visited.set k.toNat true })
        tag ↔
      tag = k ∨
        StartVisited
          (.ok { info with
            wasVisitedDuringFirstTraversal := visited })
          tag := by
  unfold StartVisited
  constructor
  · rintro ⟨_, hInfo, hRead⟩
    cases hInfo
    change read (visited.set k.toNat true) tag = some true
      at hRead
    rw [read_set true tag hRange] at hRead
    by_cases hEq : tag = k
    · exact Or.inl hEq
    · rw [if_neg hEq] at hRead
      exact Or.inr ⟨_, rfl, hRead⟩
  · intro hCases
    refine ⟨_, rfl, ?_⟩
    change read (visited.set k.toNat true) tag = some true
    rw [read_set true tag hRange]
    rcases hCases with hEq | ⟨_, hInfo, hRead⟩
    · exact if_pos hEq
    · cases hInfo
      split
      · rfl
      · exact hRead

/- A report that visits a start object. -/
theorem FirstInvariant.report_start
    (hStart : StartTags h array objects start)
    (hInvariant :
      FirstInvariant h array objects start state)
    (hPending : r ∈ state.pending)
    (hPos : 0 < start.tag r.referee)
    (hHit : Hit h array objects r.referee)
    {visited : List Bool}
    (hUser :
      state.data.user =
        .ok { start.user with
          wasVisitedDuringFirstTraversal := visited })
    (hLength : visited.length = start.user.graph.length)
    (hAnswer :
      firstTraversal (h.arguments r state.data)
          state.data.user =
        (start.tag r.referee,
          .ok { start.user with
            wasVisitedDuringFirstTraversal :=
              visited.set (start.tag r.referee).toNat true },
          .skip)) :
    FirstInvariant h array objects start
      (Worklist.report h.graph (h.invoke firstTraversal) r
        state) := by
  rcases invoke_data hAnswer with ⟨hData, hSignal⟩
  have hKeptR := hInvariant.kept r.referee hPos.ne'
  rw [← hKeptR, Function.update_eq_self, hKeptR] at hData
  have hData' :
      (Worklist.report h.graph (h.invoke firstTraversal) r
        state).data =
        ⟨state.data.tag,
          .ok { start.user with
            wasVisitedDuringFirstTraversal :=
              visited.set
                (start.tag r.referee).toNat true }⟩ := by
    rw [Worklist.report_data, hData]
  have hExpanded :
      ∀ o, o ∈ (Worklist.report h.graph
          (h.invoke firstTraversal) r state).expanded ↔
        o ∈ state.expanded := by
    intro o
    rw [Worklist.mem_expanded_report, hSignal]
    simp
  have hRange :
      InRange visited.length (start.tag r.referee) := by
    constructor
    · exact hPos.le
    · rw [hLength, ← hStart.vertices.current]
      exact hStart.vertices.lt r.referee
  have hVisited :
      ∀ tag, StartVisited
          (.ok { start.user with
            wasVisitedDuringFirstTraversal :=
              visited.set
                (start.tag r.referee).toNat true })
          tag ↔
        tag = start.tag r.referee ∨
          StartVisited state.data.user tag := by
    intro tag
    rw [hUser]
    exact startVisited_set hRange
  constructor
  · rw [hData']
    refine ⟨_, rfl, ?_⟩
    rw [List.length_set]
    exact hLength
  · intro o hPosO hVisitedO
    rw [hData'] at hVisitedO
    rcases (hVisited _).mp hVisitedO with hEq | hOld
    · have hEqO :=
        hStart.vertices.inj o r.referee hPosO hEq
      rw [hEqO]
      exact hHit
    · exact hInvariant.visited_hit o hPosO hOld
  · rw [hData']
    exact hInvariant.kept
  · rw [hData']
    exact hInvariant.fresh
  · intro o hZero hTag
    rw [hData'] at hTag
    rcases hInvariant.outside o hZero hTag with
      ⟨hOutside, hMem⟩
    exact ⟨hOutside, (hExpanded o).mpr hMem⟩
  · intro o hMem
    exact hInvariant.expanded o ((hExpanded o).mp hMem)
  · apply hInvariant.tracked.report hPending
    · rw [hSignal]
      exact Worklist.Signal.noConfusion
    · rw [hData]
      intro _
      refine ⟨?_, fun _ => (hVisited _).mpr (Or.inl rfl)⟩
      intro hZero
      rw [hZero] at hPos
      exact absurd hPos (lt_irrefl _)
    · intro other hOther
      rw [hData]
      intro hKind
      rcases hOther hKind with ⟨hFresh, hOld⟩
      exact ⟨hFresh, fun hPosO =>
        (hVisited _).mpr (Or.inr (hOld hPosO))⟩

/- Every report of the first traversal keeps the invariant. -/
theorem FirstInvariant.report
    (hStart : StartTags h array objects start)
    (hInvariant :
      FirstInvariant h array objects start state)
    (hPending : r ∈ state.pending) :
    FirstInvariant h array objects start
      (Worklist.report h.graph (h.invoke firstTraversal) r
        state) := by
  rcases hInvariant.user with ⟨visited, hUser, hLength⟩
  have hAnswer :=
    hInvariant.answer (r := r) hStart hUser hLength
  by_cases hKind : r.kind.isJni = true
  · rw [if_pos hKind] at hAnswer
    apply hInvariant.report_same hPending hAnswer
    intro hNot
    rw [hKind] at hNot
    cases hNot
  rw [if_neg hKind] at hAnswer
  have hHit :=
    hInvariant.hit hPending (by simpa using hKind)
  rcases hStart.tag_cases r.referee with
    ⟨hZero, hNot, hNe⟩ | ⟨hPos, _, _⟩ | ⟨hTag, _⟩
  · rw [if_pos hZero] at hAnswer
    exact hInvariant.report_fresh hPending hZero
      (hHit.outside hNot hNe) hAnswer
  · rw [if_neg hPos.ne', if_pos hPos] at hAnswer
    exact hInvariant.report_start hStart hPending hPos hHit
      hUser hLength hAnswer
  · have hNeg : start.tag r.referee ≠ 0 := by
      rw [hTag]
      decide
    have hNotPos : ¬ 0 < start.tag r.referee := by
      rw [hTag]
      decide
    rw [if_neg hNeg, if_neg hNotPos,
      ← hInvariant.kept r.referee hNeg] at hAnswer
    apply hInvariant.report_same hPending hAnswer
    intro _
    exact ⟨fun hZero => absurd hZero hNeg,
      fun hPos => absurd hPos hNotPos⟩

omit [DecidableEq N] in
theorem FirstInvariant.init
    (hStart : StartTags h array objects start) :
    FirstInvariant h array objects start
      (h.traversal none ⟨start.tag, .ok start.user⟩) := by
  constructor
  · refine ⟨_, rfl, ?_⟩
    rw [hStart.unvisited]
    exact List.length_replicate
  · rintro o _ ⟨info, hInfo, hRead⟩
    cases hInfo
    have hMem := mem_of_read hRead
    rw [hStart.unvisited] at hMem
    exact absurd (List.eq_of_mem_replicate hMem)
      (by decide)
  · intro o _
    rfl
  · intro o hZero
    exact Or.inl hZero
  · intro o hZero hTag
    have hVisited : start.tag o = visitedTag := hTag
    rw [hZero] at hVisited
    exact absurd hVisited (by decide)
  · intro o hMem
    exact absurd hMem List.not_mem_nil
  · exact ⟨fun r hMem => Or.inl hMem,
      fun o hMem => absurd hMem List.not_mem_nil,
      fun r hMem => Or.inl hMem⟩

/- A callback that stops the traversal leaves an error. -/
omit [DecidableEq N] in
theorem firstTraversal_stop
    (args : ReferenceArguments jlong)
    (user : UserData)
    (hStop : (firstTraversal args user).2.2 = .stop) :
    ∃ message,
      (firstTraversal args user).2.1 = .error message := by
  revert hStop
  fun_cases firstTraversal args user <;> simp

/- There is an uninterrupted first traversal. -/
theorem exists_first
    [Fintype N]
    (hStart : StartTags h array objects start) :
    ∃ first : List (Report N),
      h.FollowReferences none firstTraversal
        ⟨start.tag, .ok start.user⟩ first := by
  apply h.exists_followReferences_of_invariant none
    (FirstInvariant h array objects start)
  · intro state r hInvariant hPending
    exact hInvariant.report hStart hPending
  · intro state r hInvariant hPending hStop
    rcases firstTraversal_stop _ _ hStop with
      ⟨message, hError⟩
    rcases (hInvariant.report hStart hPending).user with
      ⟨visited, hUser, _⟩
    rw [Worklist.report_data, Heap.invoke_user, hError]
      at hUser
    cases hUser
  · exact FirstInvariant.init hStart

------------------------------------------------------------
-- The Result
------------------------------------------------------------

/- What the first traversal leaves behind. -/
structure FirstResult
    (h : Heap N)
    (array : N)
    (objects : List N)
    (start : Tagged N jlong HeapDumpInfo)
    (s : Tagged N jlong UserData) : Prop where
  user :
    ∃ visited : List Bool,
      s.user =
          .ok { start.user with
            wasVisitedDuringFirstTraversal := visited } ∧
        visited.length = start.user.graph.length
  visited :
    ∀ o, 0 < start.tag o →
      (StartVisited s.user (start.tag o) ↔
        Hit h array objects o)
  kept : ∀ o, start.tag o ≠ 0 → s.tag o = start.tag o
  fresh :
    ∀ o, start.tag o = 0 →
      (s.tag o = 0 ∧ ¬ Outside h array objects o) ∨
        (s.tag o = visitedTag ∧ Outside h array objects o)

theorem traverseFirst_result
    (hStart : StartTags h array objects start)
    {first : List (Report N)}
    (hFirst :
      h.FollowReferences none firstTraversal
        ⟨start.tag, .ok start.user⟩ first) :
    FirstResult h array objects start
      (traverseFirst h start first) := by
  have hInit := FirstInvariant.init hStart
  let final :=
    Worklist.replay h.graph (h.invoke firstTraversal) first
      ⟨h.rootReports, [], ⟨start.tag, .ok start.user⟩⟩
  have hFinal : FirstInvariant h array objects start final :=
    Worklist.replay_invariant
      (FirstInvariant h array objects start)
      (fun _ _ hInvariant hPending =>
        hInvariant.report hStart hPending)
      hFirst.1.1 hInit
  have hEmpty : final.pending = [] := hFirst.1.2
  have hRoots :
      ∀ r ∈ h.rootReports, FirstDone start.tag r final.data := by
    intro r hMem
    rcases hFinal.tracked.init_settled r hMem with
      hPending | hDone
    · rw [hEmpty] at hPending
      exact absurd hPending List.not_mem_nil
    · exact hDone
  have hOut :
      ∀ a ∈ final.expanded, ∀ r ∈ h.reportsOf a,
        FirstDone start.tag r final.data := by
    intro a hA r hMem
    rcases hFinal.tracked.out_settled a hA r hMem with
      hPending | hDone
    · rw [hEmpty] at hPending
      exact absurd hPending List.not_mem_nil
    · exact hDone
  -- Along a path around the start objects, all is marked.
  have hMarked :
      ∀ o, Outside h array objects o →
        final.data.tag o = visitedTag ∧ o ∈ final.expanded := by
    have hZero :
        ∀ o, Outside h array objects o → start.tag o = 0 :=
      fun o hOutside =>
        hStart.others o hOutside.not_start.1
          hOutside.not_start.2
    intro o hOutside
    induction hOutside with
    | @root r hMem hKind hAvoid =>
        have hZeroR := hZero r.referee
          (Heap.ReachedAvoiding.root hMem hKind hAvoid)
        have hReport : ⟨none, r⟩ ∈ h.rootReports :=
          (h.mem_rootReports_iff _).mpr ⟨rfl, hMem⟩
        have hTag :=
          ((hRoots ⟨none, r⟩ hReport) hKind).1 hZeroR
        exact ⟨hTag,
          (hFinal.outside r.referee hZeroR hTag).2⟩
    | @step a b hReached hRefers hAvoid ih =>
        have hZeroB := hZero b
          (Heap.ReachedAvoiding.step hReached hRefers hAvoid)
        rcases hRefers with ⟨r, hMem, hEq⟩
        have hReport : ⟨some a, r⟩ ∈ h.reportsOf a :=
          (h.mem_reportsOf_iff a _).mpr ⟨rfl, hMem⟩
        have hKind :=
          HeapReferenceKind.not_isJni_of_isHeld
            (h.references_isHeld a r hMem)
        rw [← hEq] at hZeroB ⊢
        have hTag :=
          ((hOut a ih.2 ⟨some a, r⟩ hReport) hKind).1 hZeroB
        exact ⟨hTag,
          (hFinal.outside r.referee hZeroB hTag).2⟩
  change FirstResult h array objects start final.data
  refine ⟨hFinal.user, ?_, hFinal.kept, ?_⟩
  · intro o hPos
    constructor
    · exact hFinal.visited_hit o hPos
    · intro hHit
      rcases hHit with
        ⟨r, hMem, hKind, hEq⟩ | ⟨a, hOutside, r, hMem, hEq⟩
      · rw [← hEq] at hPos ⊢
        have hReport : ⟨none, r⟩ ∈ h.rootReports :=
          (h.mem_rootReports_iff _).mpr ⟨rfl, hMem⟩
        exact ((hRoots ⟨none, r⟩ hReport) hKind).2 hPos
      · rw [← hEq] at hPos ⊢
        have hReport : ⟨some a, r⟩ ∈ h.reportsOf a :=
          (h.mem_reportsOf_iff a _).mpr ⟨rfl, hMem⟩
        have hKind :=
          HeapReferenceKind.not_isJni_of_isHeld
            (h.references_isHeld a r hMem)
        exact ((hOut a (hMarked a hOutside).2
          ⟨some a, r⟩ hReport) hKind).2 hPos
  · intro o hZero
    rcases hFinal.fresh o hZero with hTag | hTag
    · refine Or.inl ⟨hTag, ?_⟩
      intro hOutside
      rw [(hMarked o hOutside).1] at hTag
      exact absurd hTag (by decide)
    · exact Or.inr
        ⟨hTag, (hFinal.outside o hZero hTag).1⟩

end First

end ViaDominatorTree

end MemoryAgent
