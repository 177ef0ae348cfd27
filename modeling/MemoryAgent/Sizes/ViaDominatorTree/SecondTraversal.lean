import MemoryAgent.Sizes.ViaDominatorTree.FirstTraversal

/-
  The second traversal numbers the objects that are
  reachable from start objects and not outside, and records
  the references among them as edges.

  Key definitions include:
    * `ViaDominatorTree.Held`
    * `ViaDominatorTree.Dump`
    * `ViaDominatorTree.SecondInvariant`
    * `ViaDominatorTree.SecondResult`

  Main results:
    * `ViaDominatorTree.SecondInvariant.report`
    * `ViaDominatorTree.followReferences_secondResult`
-/

------------------------------------------------------------
-- Invariant
------------------------------------------------------------

namespace MemoryAgent

namespace ViaDominatorTree

open StdVector DominatorTree

variable {N : Type}

/- Reachable from a start object, and not outside. -/
def Held
    (h : Heap N)
    (array : N)
    (objects : List N)
    (o : N) : Prop :=
  (∃ s ∈ objects, h.Reachable s o) ∧
    ¬ Outside h array objects o

/-
  A dump whose edges are references among its vertices.  Its
  start tags are those of the dump `first`.
-/
structure Dump
    (h : Heap N)
    (tag : N → jlong)
    (first info : HeapDumpInfo) : Prop where
  vertices : VertexTags h tag info
  edges :
    ∀ u ns v, read info.graph u = some ns → v ∈ ns →
      ∃ a b, 0 < tag a ∧ tag a = u ∧ 0 < tag b ∧
        tag b = v ∧ h.Refers a b
  last : info.lastStartTag = first.lastStartTag
  visited :
    info.wasVisitedDuringFirstTraversal =
      first.wasVisitedDuringFirstTraversal

def HasEdge
    (user : UserData)
    (u v : jlong) : Prop :=
  ∃ info ns, user = .ok info ∧
    read info.graph u = some ns ∧ v ∈ ns

/-
  What a report leaves behind: an edge, unless the referrer
  is the array or the referee is outside.
-/
def SecondDone
    (array : N)
    (r : Report N)
    (s : Tagged N jlong UserData) : Prop :=
  ∀ a, r.referrer = some a → a ≠ array →
    s.tag r.referee = visitedTag ∨
      (0 < s.tag a ∧ 0 < s.tag r.referee ∧
        HasEdge s.user (s.tag a) (s.tag r.referee))

variable [DecidableEq N]

/-
  The state during the second traversal, which starts with
  the tags `before` and the dump `first`.
-/
structure SecondInvariant
    (h : Heap N)
    (array : N)
    (objects : List N)
    (before : N → jlong)
    (first : HeapDumpInfo)
    (state :
      Worklist.State N (Report N) (Tagged N jlong UserData)) :
    Prop where
  user :
    ∃ info, state.data.user = .ok info ∧
      Dump h state.data.tag first info
  kept :
    ∀ o, before o ≠ 0 → state.data.tag o = before o
  nonneg : ∀ o, before o = 0 → 0 ≤ state.data.tag o
  held :
    ∀ o, 0 < state.data.tag o → Held h array objects o
  expanded :
    ∀ a ∈ state.expanded, a = array ∨ 0 < state.data.tag a
  new_expanded :
    ∀ o, before o = 0 → 0 < state.data.tag o →
      o ∈ state.expanded
  start :
    ∀ r ∈ h.reportsOf array,
      r ∈ state.pending ∨ r.referee ∈ state.expanded
  tracked :
    Worklist.Tracked h.graph (h.reportsOf array)
      (SecondDone array) state

/- The tags after the first traversal. -/
structure BeforeSecond
    (h : Heap N)
    (array : N)
    (objects : List N)
    (before : N → jlong) : Prop where
  array_tag : before array = mockReferrerTag
  start : ∀ o ∈ objects, 0 < before o
  outside :
    ∀ o, Outside h array objects o →
      before o = visitedTag
  others :
    ∀ o, o ∉ objects → o ≠ array →
      ¬ Outside h array objects o → before o = 0

section Second

variable {h : Heap N}
variable {array : N}
variable {objects : List N}
variable {before : N → jlong}
variable {first : HeapDumpInfo}
variable {state :
  Worklist.State N (Report N) (Tagged N jlong UserData)}
variable {r : Report N}

omit [DecidableEq N] in
/- The tags of objects that are no array. -/
theorem BeforeSecond.cases
    (hBefore : BeforeSecond h array objects before)
    {o : N}
    (hNe : o ≠ array) :
    (before o = visitedTag ∧ Outside h array objects o) ∨
      (before o = 0 ∧ o ∉ objects ∧
        ¬ Outside h array objects o) ∨
      (0 < before o ∧ o ∈ objects) := by
  by_cases hOutside : Outside h array objects o
  · exact Or.inl ⟨hBefore.outside o hOutside, hOutside⟩
  · by_cases hMem : o ∈ objects
    · exact Or.inr (Or.inr ⟨hBefore.start o hMem, hMem⟩)
    · exact Or.inr (Or.inl
        ⟨hBefore.others o hMem hNe hOutside, hMem,
          hOutside⟩)

omit [DecidableEq N] in
/- The holder of a pending report is the array or a vertex. -/
theorem SecondInvariant.referrer
    (hInvariant :
      SecondInvariant h array objects before first state)
    (hPending : r ∈ state.pending) :
    ∃ a, r.referrer = some a ∧
      r.reference ∈ h.references a ∧
      (a = array ∨ 0 < state.data.tag a) := by
  rcases hInvariant.tracked.pending_known r hPending with
    hInit | ⟨a, hExpanded, hOut⟩
  · rcases (h.mem_reportsOf_iff array r).mp hInit with
      ⟨hReferrer, hMem⟩
    exact ⟨array, hReferrer, hMem, Or.inl rfl⟩
  · rcases (h.mem_reportsOf_iff a r).mp hOut with
      ⟨hReferrer, hMem⟩
    exact ⟨a, hReferrer, hMem,
      hInvariant.expanded a hExpanded⟩

/-
  A report that changes no tag.  It keeps the edges that the
  dump had.
-/
theorem SecondInvariant.report_kept
    (hInvariant :
      SecondInvariant h array objects before first state)
    (hPending : r ∈ state.pending)
    {info : HeapDumpInfo}
    {signal : Worklist.Signal}
    (hAnswer :
      secondTraversal (h.arguments r state.data)
          state.data.user =
        (state.data.tag r.referee, .ok info, signal))
    (hSignal : signal ≠ .stop)
    (hVisit :
      signal = .visit → 0 < state.data.tag r.referee)
    (hArray : r ∈ h.reportsOf array → signal = .visit)
    (hDump : Dump h state.data.tag first info)
    (hKeep :
      ∀ u v, HasEdge state.data.user u v →
        HasEdge (.ok info) u v)
    (hDone :
      SecondDone array r ⟨state.data.tag, .ok info⟩) :
    SecondInvariant h array objects before first
      (Worklist.report h.graph (h.invoke secondTraversal) r
        state) := by
  rcases invoke_data hAnswer with ⟨hData, hEqSignal⟩
  rw [Function.update_eq_self] at hData
  have hData' :
      (Worklist.report h.graph (h.invoke secondTraversal) r
        state).data = ⟨state.data.tag, .ok info⟩ := by
    rw [Worklist.report_data, hData]
  have hExpanded :
      ∀ o, o ∈ (Worklist.report h.graph
          (h.invoke secondTraversal) r state).expanded ↔
        o ∈ state.expanded ∨
          (signal = .visit ∧ o = r.referee) := by
    intro o
    rw [Worklist.mem_expanded_report, hEqSignal]
    rfl
  have hStop :
      (h.invoke secondTraversal r state.data).2 ≠ .stop := by
    rw [hEqSignal]
    exact hSignal
  have hRest :
      ∀ other, other ∈ state.pending → other ≠ r →
        other ∈ (Worklist.report h.graph
          (h.invoke secondTraversal) r state).pending :=
    fun other hMem hNe =>
      Worklist.mem_pending_report_of_ne hStop hMem hNe
  constructor
  · rw [hData']
    exact ⟨info, rfl, hDump⟩
  · rw [hData']
    exact hInvariant.kept
  · rw [hData']
    exact hInvariant.nonneg
  · rw [hData']
    exact hInvariant.held
  · intro a hMem
    rw [hData']
    rcases (hExpanded a).mp hMem with hOld | ⟨hEq, hEqA⟩
    · exact hInvariant.expanded a hOld
    · rw [hEqA]
      exact Or.inr (hVisit hEq)
  · intro o hZero hPos
    rw [hData'] at hPos
    exact (hExpanded o).mpr
      (Or.inl (hInvariant.new_expanded o hZero hPos))
  · intro other hMem
    by_cases hEq : other = r
    · rw [hEq] at hMem ⊢
      exact Or.inr ((hExpanded r.referee).mpr
        (Or.inr ⟨hArray hMem, rfl⟩))
    · rcases hInvariant.start other hMem with
        hPend | hOld
      · exact Or.inl (hRest other hPend hEq)
      · exact Or.inr ((hExpanded _).mpr (Or.inl hOld))
  · apply hInvariant.tracked.report hPending hStop
    · rw [hData]
      exact hDone
    · intro other hOther
      rw [hData]
      intro a hReferrer hNe
      rcases hOther a hReferrer hNe with
        hVisited | ⟨hPosA, hPosB, hEdge⟩
      · exact Or.inl hVisited
      · exact Or.inr ⟨hPosA, hPosB, hKeep _ _ hEdge⟩

omit [DecidableEq N] in
/- Recording a reference between two vertices. -/
theorem Dump.addNeighbour
    {tag : N → jlong}
    {info : HeapDumpInfo}
    (hDump : Dump h tag first info)
    {a b : N}
    (hPosA : 0 < tag a)
    (hPosB : 0 < tag b)
    (hRefers : h.Refers a b) :
    ∃ info', info.addNeighbour (tag a) (tag b) = .ok info' ∧
      Dump h tag first info' ∧
      HasEdge (.ok info') (tag a) (tag b) ∧
      ∀ u v, HasEdge (.ok info) u v →
        HasEdge (.ok info') u v := by
  have hRange : InRange info.graph.length (tag a) := by
    constructor
    · exact hPosA.le
    · rw [← hDump.vertices.current]
      exact hDump.vertices.lt a
  have hLength :
      (info.graph.modify (tag a).toNat
        (fun neighbours => neighbours ++ [tag b])).length =
        info.graph.length :=
    List.length_modify _ _ _
  rcases exists_read hRange with ⟨ms, hMs⟩
  refine ⟨_, addNeighbour_eq (tag b) hRange, ⟨?_, ?_,
    hDump.last, hDump.visited⟩, ?_, ?_⟩
  · have hVertices := hDump.vertices
    exact ⟨hVertices.current.trans
        (congrArg Nat.cast hLength.symm),
      hVertices.sizes_length.trans hLength.symm,
      by rw [hLength]; exact hVertices.pos,
      hVertices.lt, hVertices.inj, hVertices.surj,
      hVertices.master, hVertices.size⟩
  · intro u ns v hRead hMem
    change read (info.graph.modify (tag a).toNat _) u = _
      at hRead
    rw [read_modify _ hRange] at hRead
    by_cases hEq : u = tag a
    · rw [if_pos hEq, hEq, hMs] at hRead
      cases hRead
      rcases List.mem_append.mp hMem with hOld | hNew
      · exact hDump.edges u ms v (hEq ▸ hMs) hOld
      · exact ⟨a, b, hPosA, hEq.symm, hPosB,
          (List.mem_singleton.mp hNew).symm, hRefers⟩
    · rw [if_neg hEq] at hRead
      exact hDump.edges u ns v hRead hMem
  · refine ⟨_, ms ++ [tag b], rfl, ?_,
      List.mem_append_right _ (List.mem_singleton_self _)⟩
    change read (info.graph.modify (tag a).toNat _) _ = _
    rw [read_modify _ hRange, if_pos rfl, hMs]
    rfl
  · rintro u v ⟨info', ns, hInfo, hRead, hMem⟩
    cases hInfo
    by_cases hEq : u = tag a
    · refine ⟨_, ns ++ [tag b], rfl, ?_,
        List.mem_append_left _ hMem⟩
      change read (info.graph.modify (tag a).toNat _) _ = _
      rw [read_modify _ hRange, if_pos hEq, hRead]
      rfl
    · refine ⟨_, ns, rfl, ?_, hMem⟩
      change read (info.graph.modify (tag a).toNat _) _ = _
      rw [read_modify _ hRange, if_neg hEq]
      exact hRead

/- A new vertex has no edges yet. -/
theorem Dump.addNewVertex
    {tag : N → jlong}
    {info : HeapDumpInfo}
    (hDump : Dump h tag first info)
    {o : N}
    (hZero : tag o = 0) :
    Dump h (Function.update tag o info.currentTag) first
        (info.addNewVertex (h.size o)).2 ∧
      ∀ u v, HasEdge (.ok info) u v →
        HasEdge (.ok (info.addNewVertex (h.size o)).2)
          u v := by
  have hKeep :
      ∀ p, 0 < tag p →
        Function.update tag o info.currentTag p = tag p := by
    intro p hPos
    apply Function.update_of_ne
    intro hEq
    rw [hEq, hZero] at hPos
    exact absurd hPos (lt_irrefl _)
  constructor
  · refine ⟨hDump.vertices.addNewVertex hZero.le, ?_,
      hDump.last, hDump.visited⟩
    intro u ns v hRead hMem
    change read (info.graph ++ [[]]) u = some ns at hRead
    rcases read_append_cases hRead with hOld | ⟨_, hEmpty⟩
    · rcases hDump.edges u ns v hOld hMem with
        ⟨a, b, hPosA, hTagA, hPosB, hTagB, hRefers⟩
      refine ⟨a, b, ?_, ?_, ?_, ?_, hRefers⟩
      · rw [hKeep a hPosA]
        exact hPosA
      · rw [hKeep a hPosA]
        exact hTagA
      · rw [hKeep b hPosB]
        exact hPosB
      · rw [hKeep b hPosB]
        exact hTagB
    · rw [hEmpty] at hMem
      exact absurd hMem List.not_mem_nil
  · rintro u v ⟨info', ns, hInfo, hRead, hMem⟩
    cases hInfo
    exact ⟨_, ns, rfl, read_append_left _ hRead, hMem⟩

------------------------------------------------------------
-- Reports
------------------------------------------------------------

/- The answer to a reference to an object without tag. -/
theorem secondTraversal_new
    {s : Tagged N jlong UserData}
    {info info' : HeapDumpInfo}
    {a : N}
    (hReferrer : r.referrer = some a)
    (hNe : a ≠ r.referee)
    (hMock : s.tag a ≠ mockReferrerTag)
    (hKind : r.reference.kind.isJni = false)
    (hZero : s.tag r.referee = 0)
    (hUser : s.user = .ok info)
    (hAdd :
      (info.addNewVertex (h.size r.referee)).2.addNeighbour
          (s.tag a) info.currentTag =
        .ok info') :
    secondTraversal (h.arguments r s) s.user =
      (info.currentTag, .ok info', .visit) := by
  have hSelfRef : ¬ some a = some r.reference.referee :=
    fun hEq => hNe (Option.some.inj hEq)
  have hZero' : s.tag r.reference.referee = 0 := hZero
  rw [hUser]
  simp only [secondTraversal, Heap.arguments, hReferrer,
    Option.map_some, hMock, if_false, hKind, hZero',
    hSelfRef, decide_false, Bool.false_eq_true, or_false,
    if_true]
  rw [if_neg (by decide)]
  have hFst :
      (info.addNewVertex (h.size r.reference.referee)).1 =
        info.currentTag := rfl
  rw [hFst, hAdd]

/- The new vertex and the edge that leads to it. -/
theorem SecondInvariant.invoke_new
    (hInvariant :
      SecondInvariant h array objects before first state)
    (hPending : r ∈ state.pending)
    {a : N}
    {info : HeapDumpInfo}
    (hUser : state.data.user = .ok info)
    (hDump : Dump h state.data.tag first info)
    (hReferrer : r.referrer = some a)
    (hPosA : 0 < state.data.tag a)
    (hRefers : h.Refers a r.referee)
    (hNeA : a ≠ r.referee)
    (hZero : state.data.tag r.referee = 0)
    (hCurrent : 0 < info.currentTag) :
    ∃ info',
      (h.invoke secondTraversal r state.data).1 =
          ⟨Function.update state.data.tag r.referee
            info.currentTag, .ok info'⟩ ∧
        (h.invoke secondTraversal r state.data).2 = .visit ∧
        Dump h
          (Function.update state.data.tag r.referee
            info.currentTag) first info' ∧
        HasEdge (.ok info') (state.data.tag a)
          info.currentTag ∧
        ∀ u v, HasEdge state.data.user u v →
          HasEdge (.ok info') u v := by
  have hTagA :
      Function.update state.data.tag r.referee
          info.currentTag a =
        state.data.tag a :=
    Function.update_of_ne hNeA _ _
  have hSelf :
      Function.update state.data.tag r.referee
          info.currentTag r.referee =
        info.currentTag :=
    Function.update_self _ _ _
  rcases hDump.addNewVertex hZero with ⟨hAdded, hKeep⟩
  rcases hAdded.addNeighbour
      (by rw [hTagA]; exact hPosA)
      (by rw [hSelf]; exact hCurrent) hRefers with
    ⟨info', hAdd, hDump', hEdge, hKeep'⟩
  rw [hTagA, hSelf] at hAdd hEdge
  have hAnswer :
      secondTraversal (h.arguments r state.data)
          state.data.user =
        (info.currentTag, .ok info', .visit) := by
    have hMock : state.data.tag a ≠ mockReferrerTag := by
      intro hEq
      rw [hEq] at hPosA
      exact absurd hPosA (by decide)
    have hKind : r.reference.kind.isJni = false := by
      rcases hInvariant.referrer hPending with
        ⟨b, _, hMem, _⟩
      exact HeapReferenceKind.not_isJni_of_isHeld
        (h.references_isHeld b r.reference hMem)
    exact secondTraversal_new hReferrer hNeA hMock hKind
      hZero hUser hAdd
  rcases invoke_data hAnswer with ⟨hData, hSignal⟩
  refine ⟨info', hData, hSignal, hDump', hEdge, ?_⟩
  intro u v hOld
  rw [hUser] at hOld
  exact hKeep' u v (hKeep u v hOld)

/- A report that gives its referee a new vertex. -/
theorem SecondInvariant.report_new
    (hInvariant :
      SecondInvariant h array objects before first state)
    (hPending : r ∈ state.pending)
    {a : N}
    (hReferrer : r.referrer = some a)
    (hPosA : 0 < state.data.tag a)
    (hRefers : h.Refers a r.referee)
    (hBefore : before r.referee = 0)
    (hZero : state.data.tag r.referee = 0)
    (hHeld : Held h array objects r.referee) :
    SecondInvariant h array objects before first
      (Worklist.report h.graph (h.invoke secondTraversal) r
        state) := by
  rcases hInvariant.user with ⟨info, hUser, hDump⟩
  let tag : N → jlong :=
    Function.update state.data.tag r.referee info.currentTag
  have hOther :
      ∀ o, o ≠ r.referee → tag o = state.data.tag o :=
    fun o hNeO => Function.update_of_ne hNeO _ _
  have hSelf : tag r.referee = info.currentTag :=
    Function.update_self _ _ _
  have hNeA : a ≠ r.referee := by
    intro hEq
    rw [hEq, hZero] at hPosA
    exact absurd hPosA (lt_irrefl _)
  have hCurrent : (0 : jlong) < info.currentTag := by
    rw [hDump.vertices.current]
    exact Int.natCast_pos.mpr hDump.vertices.pos
  have hPosTagA : 0 < tag a := by
    rw [hOther a hNeA]
    exact hPosA
  have hPosTag : 0 < tag r.referee := by
    rw [hSelf]
    exact hCurrent
  rcases hInvariant.invoke_new hPending hUser hDump hReferrer
      hPosA hRefers hNeA hZero hCurrent with
    ⟨info', hData, hSignal, hDump', hEdge, hEdges⟩
  rw [← hOther a hNeA, ← hSelf] at hEdge
  have hData' :
      (Worklist.report h.graph (h.invoke secondTraversal) r
        state).data = ⟨tag, .ok info'⟩ := by
    rw [Worklist.report_data, hData]
  have hExpanded :
      ∀ o, o ∈ (Worklist.report h.graph
          (h.invoke secondTraversal) r state).expanded ↔
        o ∈ state.expanded ∨ o = r.referee := by
    intro o
    rw [Worklist.mem_expanded_report, hSignal]
    simp
  have hStop :
      (h.invoke secondTraversal r state.data).2 ≠ .stop := by
    rw [hSignal]
    exact Worklist.Signal.noConfusion
  have hPosKeep :
      ∀ o, 0 < state.data.tag o →
        tag o = state.data.tag o := by
    intro o hPos
    apply hOther
    intro hEq
    rw [hEq, hZero] at hPos
    exact absurd hPos (lt_irrefl _)
  constructor
  · rw [hData']
    exact ⟨info', rfl, hDump'⟩
  · intro o hKept
    have hNeO : o ≠ r.referee := by
      intro hEq
      rw [hEq] at hKept
      exact hKept hBefore
    rw [hData']
    exact (hOther o hNeO).trans (hInvariant.kept o hKept)
  · intro o hZeroO
    rw [hData']
    change 0 ≤ tag o
    by_cases hEq : o = r.referee
    · rw [hEq]
      exact hPosTag.le
    · rw [hOther o hEq]
      exact hInvariant.nonneg o hZeroO
  · intro o hPos
    rw [hData'] at hPos
    by_cases hEq : o = r.referee
    · rw [hEq]
      exact hHeld
    · have hPosO : 0 < tag o := hPos
      rw [hOther o hEq] at hPosO
      exact hInvariant.held o hPosO
  · intro o hMem
    rw [hData']
    change o = array ∨ 0 < tag o
    rcases (hExpanded o).mp hMem with hOld | hEq
    · rcases hInvariant.expanded o hOld with hArr | hPos
      · exact Or.inl hArr
      · rw [hPosKeep o hPos]
        exact Or.inr hPos
    · rw [hEq]
      exact Or.inr hPosTag
  · intro o hZeroO hPos
    rw [hData'] at hPos
    by_cases hEq : o = r.referee
    · exact (hExpanded o).mpr (Or.inr hEq)
    · have hPosO : 0 < tag o := hPos
      rw [hOther o hEq] at hPosO
      exact (hExpanded o).mpr
        (Or.inl (hInvariant.new_expanded o hZeroO hPosO))
  · intro other hMem
    rcases hInvariant.start other hMem with hPend | hOld
    · by_cases hEq : other = r
      · rw [hEq]
        exact Or.inr ((hExpanded _).mpr (Or.inr rfl))
      · exact Or.inl
          (Worklist.mem_pending_report_of_ne hStop hPend hEq)
    · exact Or.inr ((hExpanded _).mpr (Or.inl hOld))
  · apply hInvariant.tracked.report hPending hStop
    · rw [hData]
      intro b hReferrerB _
      rw [hReferrer] at hReferrerB
      cases hReferrerB
      exact Or.inr ⟨hPosTagA, hPosTag, hEdge⟩
    · intro other hOtherDone
      rw [hData]
      intro b hReferrerB hNeB
      rcases hOtherDone b hReferrerB hNeB with
        hVisited | ⟨hPosB, hPosC, hEdgeB⟩
      · refine Or.inl ?_
        have hNeO : other.referee ≠ r.referee := by
          intro hEq
          rw [hEq, hZero] at hVisited
          exact absurd hVisited (by decide)
        exact (hOther _ hNeO).trans hVisited
      · refine Or.inr ?_
        change 0 < tag b ∧ 0 < tag other.referee ∧
          HasEdge (.ok info') (tag b) (tag other.referee)
        rw [hPosKeep b hPosB, hPosKeep _ hPosC]
        exact ⟨hPosB, hPosC, hEdges _ _ hEdgeB⟩

/- An element of the array is always visited. -/
theorem SecondInvariant.report_element
    (hArray : IsInputArray h array objects)
    (hBefore : BeforeSecond h array objects before)
    (hInvariant :
      SecondInvariant h array objects before first state)
    (hPending : r ∈ state.pending)
    (hReferrer : r.referrer = some array)
    (hRefers : h.Refers array r.referee) :
    SecondInvariant h array objects before first
      (Worklist.report h.graph (h.invoke secondTraversal) r
        state) := by
  rcases hInvariant.user with ⟨info, hUser, hDump⟩
  have hTagArray :
      state.data.tag array = mockReferrerTag := by
    have hNeg : before array ≠ 0 := by
      rw [hBefore.array_tag]
      decide
    rw [hInvariant.kept array hNeg]
    exact hBefore.array_tag
  have hElement : r.referee ∈ objects :=
    (hArray.elements r.referee).mp hRefers
  have hPos := hBefore.start r.referee hElement
  have hKept := hInvariant.kept r.referee hPos.ne'
  have hAnswer :
      secondTraversal (h.arguments r state.data)
          state.data.user =
        (state.data.tag r.referee, .ok info, .visit) := by
    rw [hUser]
    simp [secondTraversal, Heap.arguments, hReferrer,
      hTagArray]
  apply hInvariant.report_kept hPending hAnswer
    Worklist.Signal.noConfusion
  · intro _
    rw [hKept]
    exact hPos
  · exact fun _ => rfl
  · exact hDump
  · intro u v hEdge
    rw [hUser] at hEdge
    exact hEdge
  · intro b hReferrerB hNeB
    rw [hReferrer] at hReferrerB
    cases hReferrerB
    exact absurd rfl hNeB

omit [DecidableEq N] in
theorem not_mem_reportsOf
    {a : N}
    (hReferrer : r.referrer = some a)
    (hNe : a ≠ array) :
    r ∉ h.reportsOf array := by
  intro hInit
  have hEq := ((h.mem_reportsOf_iff array r).mp hInit).1
  rw [hReferrer] at hEq
  exact hNe (Option.some.inj hEq)

/- What the first traversal reached is passed over. -/
theorem SecondInvariant.report_visited
    (hInvariant :
      SecondInvariant h array objects before first state)
    (hPending : r ∈ state.pending)
    {a : N}
    (hReferrer : r.referrer = some a)
    (hNe : a ≠ array)
    (hMock : state.data.tag a ≠ mockReferrerTag)
    (hVisited : state.data.tag r.referee = visitedTag) :
    SecondInvariant h array objects before first
      (Worklist.report h.graph (h.invoke secondTraversal) r
        state) := by
  rcases hInvariant.user with ⟨info, hUser, hDump⟩
  have hAnswer :
      secondTraversal (h.arguments r state.data)
          state.data.user =
        (state.data.tag r.referee, .ok info, .skip) := by
    rw [hUser]
    simp [secondTraversal, Heap.arguments, hReferrer,
      hMock, hVisited]
  apply hInvariant.report_kept hPending hAnswer
    Worklist.Signal.noConfusion
  · exact Worklist.Signal.noConfusion
  · exact fun hInit =>
      absurd hInit (not_mem_reportsOf hReferrer hNe)
  · exact hDump
  · intro u v hEdge
    rw [hUser] at hEdge
    exact hEdge
  · intro b _ _
    exact Or.inl hVisited

/- A reference between two vertices becomes an edge. -/
theorem SecondInvariant.report_vertex
    (hInvariant :
      SecondInvariant h array objects before first state)
    (hPending : r ∈ state.pending)
    {a : N}
    (hReferrer : r.referrer = some a)
    (hNe : a ≠ array)
    (hKind : r.reference.kind.isJni = false)
    (hRefers : h.Refers a r.referee)
    (hPosA : 0 < state.data.tag a)
    (hPosB : 0 < state.data.tag r.referee) :
    SecondInvariant h array objects before first
      (Worklist.report h.graph (h.invoke secondTraversal) r
        state) := by
  rcases hInvariant.user with ⟨info, hUser, hDump⟩
  rcases hDump.addNeighbour hPosA hPosB hRefers with
    ⟨info', hAdd, hDump', hEdge, hKeep⟩
  have hMock : state.data.tag a ≠ mockReferrerTag := by
    intro hEq
    rw [hEq] at hPosA
    exact absurd hPosA (by decide)
  have hVisited :
      state.data.tag r.reference.referee ≠ visitedTag := by
    intro hEq
    have hPos : 0 < state.data.tag r.reference.referee :=
      hPosB
    rw [hEq] at hPos
    exact absurd hPos (by decide)
  have hZero : state.data.tag r.reference.referee ≠ 0 :=
    hPosB.ne'
  have hAnswer :
      secondTraversal (h.arguments r state.data)
          state.data.user =
        (state.data.tag r.referee, .ok info', .skip) := by
    rw [hUser]
    simp [secondTraversal, Heap.arguments, hReferrer,
      hMock, hVisited, hZero, hKind, hAdd]
  apply hInvariant.report_kept hPending hAnswer
    Worklist.Signal.noConfusion
  · exact Worklist.Signal.noConfusion
  · exact fun hInit =>
      absurd hInit (not_mem_reportsOf hReferrer hNe)
  · exact hDump'
  · intro u v hOld
    rw [hUser] at hOld
    exact hKeep u v hOld
  · intro b hReferrerB _
    rw [hReferrer] at hReferrerB
    cases hReferrerB
    exact Or.inr ⟨hPosA, hPosB, hEdge⟩

/- Every report of the second traversal keeps the invariant. -/
theorem SecondInvariant.report
    (hArray : IsInputArray h array objects)
    (hBefore : BeforeSecond h array objects before)
    (hInvariant :
      SecondInvariant h array objects before first state)
    (hPending : r ∈ state.pending) :
    SecondInvariant h array objects before first
      (Worklist.report h.graph (h.invoke secondTraversal) r
        state) := by
  rcases hInvariant.referrer hPending with
    ⟨a, hReferrer, hMem, hHolder⟩
  have hRefers : h.Refers a r.referee :=
    ⟨r.reference, hMem, rfl⟩
  have hNe := hArray.unreferenced a r.referee hRefers
  have hKind : r.reference.kind.isJni = false :=
    HeapReferenceKind.not_isJni_of_isHeld
      (h.references_isHeld a r.reference hMem)
  by_cases hEqA : a = array
  · rw [hEqA] at hReferrer hRefers
    exact hInvariant.report_element hArray hBefore hPending
      hReferrer hRefers
  have hPosA : 0 < state.data.tag a :=
    hHolder.resolve_left hEqA
  by_cases hVisited :
      state.data.tag r.referee = visitedTag
  · have hMock : state.data.tag a ≠ mockReferrerTag := by
      intro hEq
      rw [hEq] at hPosA
      exact absurd hPosA (by decide)
    exact hInvariant.report_visited hPending hReferrer hEqA
      hMock hVisited
  by_cases hZero : state.data.tag r.referee = 0
  · -- The referee was neither a start object nor outside.
    have hBeforeR : before r.referee = 0 := by
      by_contra hNot
      exact hNot
        ((hInvariant.kept r.referee hNot).symm.trans hZero)
    have hNotOutside :
        ¬ Outside h array objects r.referee := by
      intro hOutside
      rw [hBefore.outside r.referee hOutside] at hBeforeR
      exact absurd hBeforeR (by decide)
    rcases (hInvariant.held a hPosA).1 with ⟨s, hS, hPath⟩
    exact hInvariant.report_new hPending hReferrer hPosA
      hRefers hBeforeR hZero
      ⟨⟨s, hS, hPath.tail hRefers⟩, hNotOutside⟩
  · have hPosB : 0 < state.data.tag r.referee := by
      rcases hBefore.cases hNe with
        ⟨hTag, _⟩ | ⟨hTag, _, _⟩ | ⟨hPos, _⟩
      · have hNeg : before r.referee ≠ 0 := by
          rw [hTag]
          decide
        have hKept := hInvariant.kept r.referee hNeg
        exact absurd (hKept.trans hTag) hVisited
      · have hNonneg := hInvariant.nonneg r.referee hTag
        exact lt_of_le_of_ne hNonneg (Ne.symm hZero)
      · rw [hInvariant.kept r.referee hPos.ne']
        exact hPos
    exact hInvariant.report_vertex hPending hReferrer hEqA
      hKind hRefers hPosA hPosB

omit [DecidableEq N] in
theorem SecondInvariant.init
    (hBefore : BeforeSecond h array objects before)
    (hDump : Dump h before first first) :
    SecondInvariant h array objects before first
      (h.traversal (some array) ⟨before, .ok first⟩) := by
  have hStartHeld :
      ∀ o ∈ objects, Held h array objects o := by
    intro o hMem
    exact ⟨⟨o, hMem, Relation.ReflTransGen.refl⟩,
      fun hOutside => hOutside.not_start.1 hMem⟩
  have hArrayTag : ¬ 0 < before array := by
    rw [hBefore.array_tag]
    decide
  have hStartOf :
      ∀ o, 0 < before o → o ∈ objects := by
    intro o hPos
    have hNe : o ≠ array := by
      intro hEq
      exact hArrayTag (hEq ▸ hPos)
    rcases hBefore.cases hNe with
      ⟨hTag, _⟩ | ⟨hTag, _, _⟩ | ⟨_, hMem⟩
    · rw [hTag] at hPos
      exact absurd hPos (by decide)
    · rw [hTag] at hPos
      exact absurd hPos (lt_irrefl _)
    · exact hMem
  constructor
  · exact ⟨first, rfl, hDump⟩
  · intro o _
    rfl
  · intro o hZero
    exact hZero.ge
  · intro o hPos
    exact hStartHeld o (hStartOf o hPos)
  · intro a hMem
    exact Or.inl (List.mem_singleton.mp hMem)
  · intro o hZero hPos
    have hEq : before o = 0 := hZero
    exact absurd hPos (by
      change ¬ 0 < before o
      rw [hEq]
      exact lt_irrefl _)
  · intro r hMem
    exact Or.inl hMem
  · refine ⟨fun r hMem => Or.inl hMem, ?_,
      fun r hMem => Or.inl hMem⟩
    intro o hMem r hOut
    rw [List.mem_singleton.mp hMem] at hOut
    exact Or.inl hOut

/- A callback that stops the traversal leaves an error. -/
omit [DecidableEq N] in
theorem secondTraversal_stop
    (args : ReferenceArguments jlong)
    (user : UserData)
    (hStop : (secondTraversal args user).2.2 = .stop) :
    ∃ message,
      (secondTraversal args user).2.1 = .error message := by
  revert hStop
  fun_cases secondTraversal args user <;> simp

/- There is an uninterrupted second traversal. -/
theorem exists_second
    [Fintype N]
    (hArray : IsInputArray h array objects)
    (hBefore : BeforeSecond h array objects before)
    (hDump : Dump h before first first) :
    ∃ second : List (Report N),
      h.FollowReferences (some array) secondTraversal
        ⟨before, .ok first⟩ second := by
  apply h.exists_followReferences_of_invariant (some array)
    (SecondInvariant h array objects before first)
  · intro state r hInvariant hPending
    exact hInvariant.report hArray hBefore hPending
  · intro state r hInvariant hPending hStop
    rcases secondTraversal_stop _ _ hStop with
      ⟨message, hError⟩
    rcases (hInvariant.report hArray hBefore hPending).user
      with ⟨info, hUser, _⟩
    rw [Worklist.report_data, Heap.invoke_user, hError]
      at hUser
    cases hUser
  · exact SecondInvariant.init hBefore hDump

------------------------------------------------------------
-- The Result
------------------------------------------------------------

/- What the second traversal leaves behind. -/
structure SecondResult
    (h : Heap N)
    (array : N)
    (objects : List N)
    (before tag : N → jlong)
    (first info : HeapDumpInfo) : Prop where
  dump : Dump h tag first info
  held_iff : ∀ o, 0 < tag o ↔ Held h array objects o
  start : ∀ o ∈ objects, tag o = before o
  edge :
    ∀ a b, 0 < tag a → 0 < tag b → h.Refers a b →
      HasEdge (.ok info) (tag a) (tag b)

section Done

variable (hArray : IsInputArray h array objects)
variable (hBefore : BeforeSecond h array objects before)
variable
  (hInvariant :
    SecondInvariant h array objects before first state)
variable (hEmpty : state.pending = [])

omit [DecidableEq N]

include hBefore in
theorem BeforeSecond.not_pos_array :
    ¬ 0 < before array := by
  rw [hBefore.array_tag]
  decide

include hArray hBefore hInvariant hEmpty in
/- In the end every vertex is visited. -/
theorem SecondInvariant.mem_expanded
    {o : N}
    (hPos : 0 < state.data.tag o) :
    o ∈ state.expanded := by
  by_cases hZero : before o = 0
  · exact hInvariant.new_expanded o hZero hPos
  · rw [hInvariant.kept o hZero] at hPos
    have hNe : o ≠ array := by
      intro hEq
      exact hBefore.not_pos_array (hEq ▸ hPos)
    have hMem : o ∈ objects := by
      rcases hBefore.cases hNe with
        ⟨hTag, _⟩ | ⟨hTag, _, _⟩ | ⟨_, hMem⟩
      · rw [hTag] at hPos
        exact absurd hPos (by decide)
      · exact absurd hTag hZero
      · exact hMem
    rcases (hArray.elements o).mpr hMem with ⟨r, hRef, hEq⟩
    have hReport : ⟨some array, r⟩ ∈ h.reportsOf array :=
      (h.mem_reportsOf_iff array _).mpr ⟨rfl, hRef⟩
    rcases hInvariant.start _ hReport with hPend | hDone
    · rw [hEmpty] at hPend
      exact absurd hPend List.not_mem_nil
    · have hReferee :
          (⟨some array, r⟩ : Report N).referee = o := hEq
      rw [hReferee] at hDone
      exact hDone

include hArray hBefore hInvariant hEmpty in
/- Its references lead outside, or are edges. -/
theorem SecondInvariant.visited_or_edge
    {a b : N}
    (hPos : 0 < state.data.tag a)
    (hRefers : h.Refers a b) :
    state.data.tag b = visitedTag ∨
      (0 < state.data.tag b ∧
        HasEdge state.data.user (state.data.tag a)
          (state.data.tag b)) := by
  rcases hRefers with ⟨r, hRef, hEq⟩
  have hNe : a ≠ array := by
    intro hEqA
    have hNeg : before array ≠ 0 := by
      rw [hBefore.array_tag]
      decide
    rw [hEqA, hInvariant.kept array hNeg] at hPos
    exact hBefore.not_pos_array hPos
  have hReport : ⟨some a, r⟩ ∈ h.reportsOf a :=
    (h.mem_reportsOf_iff a _).mpr ⟨rfl, hRef⟩
  have hMem :=
    hInvariant.mem_expanded hArray hBefore hEmpty hPos
  rcases hInvariant.tracked.out_settled a hMem ⟨some a, r⟩
      hReport with hPend | hDone
  · rw [hEmpty] at hPend
    exact absurd hPend List.not_mem_nil
  · rw [← hEq]
    rcases hDone a rfl hNe with
      hVisited | ⟨_, hPosB, hEdge⟩
    · exact Or.inl hVisited
    · exact Or.inr ⟨hPosB, hEdge⟩

include hBefore hInvariant in
theorem SecondInvariant.outside_of_visited
    {b : N}
    (hNe : b ≠ array)
    (hTag : state.data.tag b = visitedTag) :
    Outside h array objects b := by
  rcases hBefore.cases hNe with
    ⟨_, hOutside⟩ | ⟨hZero, _, _⟩ | ⟨hPos, _⟩
  · exact hOutside
  · have hNonneg := hInvariant.nonneg b hZero
    rw [hTag] at hNonneg
    exact absurd hNonneg (by decide)
  · rw [hInvariant.kept b hPos.ne'] at hTag
    rw [hTag] at hPos
    exact absurd hPos (by decide)

include hArray hBefore hInvariant hEmpty in
/- The vertices are the objects that are held. -/
theorem SecondInvariant.pos_of_held
    {o : N}
    (hHeld : Held h array objects o) :
    0 < state.data.tag o := by
  have hStart :
      ∀ o ∈ objects, 0 < state.data.tag o := by
    intro o hMem
    have hPos := hBefore.start o hMem
    rw [hInvariant.kept o hPos.ne']
    exact hPos
  rcases hHeld with ⟨⟨s, hS, hPath⟩, hNotOutside⟩
  induction hPath with
  | refl => exact hStart s hS
  | @tail a b _ hRefers ih =>
      have hNe := hArray.unreferenced a b hRefers
      by_cases hOutside : Outside h array objects a
      · apply hStart b
        by_contra hNot
        exact hNotOutside
          (Heap.ReachedAvoiding.step hOutside hRefers
            (not_or.mpr ⟨hNot, hNe⟩))
      · rcases hInvariant.visited_or_edge hArray hBefore
            hEmpty (ih hOutside) hRefers with
          hVisited | ⟨hPos, _⟩
        · exact absurd
            (hInvariant.outside_of_visited hBefore hNe
              hVisited)
            hNotOutside
        · exact hPos

end Done

theorem followReferences_secondResult
    (hArray : IsInputArray h array objects)
    (hBefore : BeforeSecond h array objects before)
    (hDump : Dump h before first first)
    {second : List (Report N)}
    (hSecond :
      h.FollowReferences (some array) secondTraversal
        ⟨before, .ok first⟩ second) :
    ∃ tag info,
      h.followReferences (some array) secondTraversal
          ⟨before, .ok first⟩ second = ⟨tag, .ok info⟩ ∧
        SecondResult h array objects before tag first
          info := by
  have hInit := SecondInvariant.init hBefore hDump
  let final :=
    Worklist.replay h.graph (h.invoke secondTraversal) second
      ⟨h.reportsOf array, [array], ⟨before, .ok first⟩⟩
  have hFinal :
      SecondInvariant h array objects before first final :=
    Worklist.replay_invariant
      (SecondInvariant h array objects before first)
      (fun _ _ hInvariant hPending =>
        hInvariant.report hArray hBefore hPending)
      hSecond.1.1 hInit
  have hEmpty : final.pending = [] := hSecond.1.2
  rcases hFinal.user with ⟨info, hUser, hDumpFinal⟩
  refine ⟨final.data.tag, info, ?_, hDumpFinal, ?_, ?_, ?_⟩
  · change final.data = _
    rw [← hUser]
  · intro o
    exact ⟨hFinal.held o,
      hFinal.pos_of_held hArray hBefore hEmpty⟩
  · intro o hMem
    exact hFinal.kept o (hBefore.start o hMem).ne'
  · intro a b hPosA hPosB hRefers
    rcases hFinal.visited_or_edge hArray hBefore hEmpty hPosA
        hRefers with hVisited | ⟨_, hEdge⟩
    · rw [hVisited] at hPosB
      exact absurd hPosB (by decide)
    · rw [hUser] at hEdge
      exact hEdge

end Second

end ViaDominatorTree

end MemoryAgent
