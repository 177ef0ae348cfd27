import MemoryAgent.Jvmti.Orders
import MemoryAgent.Sizes.ViaDominatorTree.RetainedSizes

/-
  The dump of a heap whose objects may refer to the input
  array, with the multiplicities of its edges.

  Key definitions include:
    * `ViaDominatorTree.neighbours`
    * `ViaDominatorTree.Recorded`
    * `ViaDominatorTree.WellFormedDump`

  Main results:
    * `ViaDominatorTree.Recorded.report`
    * `ViaDominatorTree.dump_wellFormed_iff`
-/

------------------------------------------------------------
-- Neighbours
------------------------------------------------------------

namespace MemoryAgent

namespace ViaDominatorTree

open StdVector DominatorTree

variable {N : Type}
variable [DecidableEq N]

/- What a report adds to the neighbours of vertex `u`. -/
def neighbour
    (array : N)
    (tag : N → jlong)
    (u : jlong)
    (r : Report N) : Option jlong :=
  match r.referrer with
  | none => none
  | some a =>
      if a ≠ array ∧ tag a = u ∧
          tag r.referee ≠ visitedTag then
        some (tag r.referee)
      else
        none

/- The neighbours of a vertex, in the order of reports. -/
def neighbours
    (array : N)
    (tag : N → jlong)
    (reports : List (Report N))
    (u : jlong) : jlongs :=
  reports.filterMap (neighbour array tag u)

variable {h : Heap N}
variable {array : N}
variable {objects : List N}
variable {before tag tag' : N → jlong}
variable {reports : List (Report N)}
variable {n : Nat}
variable {r : Report N}
variable {u v : jlong}
variable {a : N}

theorem neighbours_append
    (first second : List (Report N)) :
    neighbours array tag (first ++ second) u =
      neighbours array tag first u ++
        neighbours array tag second u :=
  List.filterMap_append

theorem neighbours_congr
    (hHolder :
      ∀ r ∈ reports, ∀ a, r.referrer = some a →
        tag' a = tag a)
    (hReferee :
      ∀ r ∈ reports, tag' r.referee = tag r.referee) :
    neighbours array tag' reports u =
      neighbours array tag reports u := by
  apply List.filterMap_congr
  intro r hMem
  unfold neighbour
  cases hReferrer : r.referrer with
  | none => rfl
  | some a =>
      dsimp only
      rw [hHolder r hMem a hReferrer, hReferee r hMem]

theorem neighbours_eq_nil
    (hNot :
      ∀ r ∈ reports, ∀ a, r.referrer = some a →
        a ≠ array → tag a ≠ u) :
    neighbours array tag reports u = [] := by
  apply List.filterMap_eq_nil_iff.mpr
  intro r hMem
  unfold neighbour
  cases hReferrer : r.referrer with
  | none => rfl
  | some a =>
      dsimp only
      rw [if_neg]
      rintro ⟨hNe, hTag, _⟩
      exact hNot r hMem a hReferrer hNe hTag

theorem mem_neighbours_iff :
    v ∈ neighbours array tag reports u ↔
      ∃ r ∈ reports, ∃ a, r.referrer = some a ∧
        a ≠ array ∧ tag a = u ∧
        tag r.referee ≠ visitedTag ∧ tag r.referee = v := by
  unfold neighbours
  rw [List.mem_filterMap]
  apply exists_congr
  intro r
  apply and_congr_right
  intro _
  unfold neighbour
  cases hReferrer : r.referrer with
  | none =>
      refine iff_of_false (fun hSome => by cases hSome) ?_
      rintro ⟨a, hSome, _⟩
      cases hSome
  | some a =>
      dsimp only
      by_cases hAll :
          a ≠ array ∧ tag a = u ∧
            tag r.referee ≠ visitedTag
      · rw [if_pos hAll, Option.some_inj]
        constructor
        · exact fun hEq =>
            ⟨a, rfl, hAll.1, hAll.2.1, hAll.2.2, hEq⟩
        · rintro ⟨b, _, _, _, _, hEq⟩
          exact hEq
      · rw [if_neg hAll]
        refine iff_of_false (fun hSome => by cases hSome) ?_
        rintro ⟨b, hSome, hNe, hTag, hVisited, _⟩
        cases hSome
        exact hAll ⟨hNe, hTag, hVisited⟩

/- How often a vertex is a neighbour of another one. -/
theorem count_neighbours
    {b : N}
    (hNe : a ≠ array)
    (hInjA : ∀ p, tag p = tag a → p = a)
    (hInjB : ∀ p, tag p = tag b → p = b)
    (hVisited : tag b ≠ visitedTag) :
    (neighbours array tag reports (tag a)).count (tag b) =
      (reports.filter
        (fun r => r.referrer = some a)).countP
          (fun r => r.referee = b) := by
  unfold neighbours
  induction reports with
  | nil => rfl
  | cons r reports ih =>
      rw [List.filterMap_cons, List.filter_cons]
      cases hReferrer : r.referrer with
      | none =>
          have hHead :
              neighbour array tag (tag a) r = none := by
            unfold neighbour
            rw [hReferrer]
          simpa [hHead] using ih
      | some p =>
          have hHead :
              neighbour array tag (tag a) r =
                if p ≠ array ∧ tag p = tag a ∧
                    tag r.referee ≠ visitedTag then
                  some (tag r.referee)
                else
                  none := by
            unfold neighbour
            rw [hReferrer]
          rw [hHead]
          by_cases hP : p = a
          · rw [hP]
            by_cases hB : r.referee = b
            · simp [hNe, hB, hVisited, ih]
            · have hTag : tag r.referee ≠ tag b :=
                fun hEq => hB (hInjB _ hEq)
              by_cases hSeen : tag r.referee = visitedTag
              · simp [hB, hSeen, ih]
              · simp [hNe, hB, hSeen, hTag, ih]
          · have hTag : tag p ≠ tag a :=
              fun hEq => hP (hInjA _ hEq)
            simp [hP, hTag, ih]

theorem neighbours_succ
    (hAt : reports[n]? = some r) :
    neighbours array tag (reports.take (n + 1)) u =
      neighbours array tag (reports.take n) u ++
        (neighbour array tag u r).toList := by
  rw [Heap.take_succ_of_getElem? hAt, neighbours_append]
  congr 1

------------------------------------------------------------
-- Invariant
------------------------------------------------------------

/- The graph holds the references reported so far. -/
structure GraphOf
    (h : Heap N)
    (array : N)
    (tag : N → jlong)
    (reports : List (Report N))
    (info : HeapDumpInfo) : Prop where
  vertices : VertexTags h tag info
  graph :
    ∀ u, InRange info.graph.length u →
      read info.graph u =
        some (neighbours array tag reports u)

/-
  The state after `n` reports of the second traversal, which
  starts with the tags `before`.
-/
structure Recorded
    (h : Heap N)
    (array : N)
    (objects : List N)
    (before : N → jlong)
    (reports : List (Report N))
    (n : Nat)
    (state :
      Worklist.State N (Report N) (Tagged N jlong UserData)) :
    Prop where
  counted : Heap.Counted h reports n state
  user :
    ∃ info, state.data.user = .ok info ∧
      GraphOf h array state.data.tag (reports.take n) info
  kept :
    ∀ o, before o ≠ 0 → state.data.tag o = before o
  nonneg : ∀ o, before o = 0 → 0 ≤ state.data.tag o
  reached :
    ∀ o, 0 < state.data.tag o →
      ∃ s ∈ objects, h.Reachable s o
  expanded :
    ∀ a ∈ state.expanded, a = array ∨ 0 < state.data.tag a
  new_expanded :
    ∀ o, before o = 0 → 0 < state.data.tag o →
      o ∈ state.expanded
  start :
    ∀ q ∈ h.reportsOf array,
      q ∈ state.pending ∨ q.referee ∈ state.expanded
  settled :
    ∀ q ∈ reports.take n, state.data.tag q.referee ≠ 0

theorem GraphOf.skip
    {info : HeapDumpInfo}
    (hGraph :
      GraphOf h array tag (reports.take n) info)
    (hAt : reports[n]? = some r)
    (hNone : ∀ u, neighbour array tag u r = none) :
    GraphOf h array tag (reports.take (n + 1)) info := by
  refine ⟨hGraph.vertices, ?_⟩
  intro u hRange
  rw [neighbours_succ hAt, hNone u]
  simpa using hGraph.graph u hRange

/- Recording the reference of a vertex. -/
theorem GraphOf.addNeighbour
    {info : HeapDumpInfo}
    (hGraph :
      GraphOf h array tag (reports.take n) info)
    (hAt : reports[n]? = some r)
    (hReferrer : r.referrer = some a)
    (hNe : a ≠ array)
    (hPos : 0 < tag a)
    (hVisited : tag r.referee ≠ visitedTag) :
    ∃ info',
      info.addNeighbour (tag a) (tag r.referee) =
          .ok info' ∧
        GraphOf h array tag (reports.take (n + 1))
          info' := by
  have hVertices := hGraph.vertices
  have hRange : InRange info.graph.length (tag a) := by
    constructor
    · exact hPos.le
    · rw [← hVertices.current]
      exact hVertices.lt a
  have hLength :
      (info.graph.modify (tag a).toNat
        (fun neighbours =>
          neighbours ++ [tag r.referee])).length =
        info.graph.length :=
    List.length_modify _ _ _
  refine ⟨_, addNeighbour_eq (tag r.referee) hRange,
    ⟨hVertices.current.trans
        (congrArg Nat.cast hLength.symm),
      hVertices.sizes_length.trans hLength.symm,
      by rw [hLength]; exact hVertices.pos,
      hVertices.lt, hVertices.inj, hVertices.surj,
      hVertices.master, hVertices.size⟩, ?_⟩
  intro u hRangeU
  change read (info.graph.modify (tag a).toNat _) u = _
  change InRange (info.graph.modify (tag a).toNat
    (fun neighbours =>
      neighbours ++ [tag r.referee])).length u at hRangeU
  rw [hLength] at hRangeU
  rw [read_modify _ hRange, neighbours_succ hAt,
    hGraph.graph u hRangeU]
  by_cases hEq : u = tag a
  · have hSome :
        neighbour array tag u r =
          some (tag r.referee) := by
      unfold neighbour
      rw [hReferrer]
      exact if_pos ⟨hNe, hEq.symm, hVisited⟩
    rw [if_pos hEq, hSome]
    rfl
  · have hNone : neighbour array tag u r = none := by
      unfold neighbour
      rw [hReferrer]
      exact if_neg (fun hAll => hEq hAll.2.1.symm)
    rw [if_neg hEq, hNone]
    simp

/- A new vertex has no neighbours yet. -/
theorem GraphOf.addNewVertex
    {info : HeapDumpInfo}
    {o : N}
    (hGraph : GraphOf h array tag reports info)
    (hZero : tag o = 0)
    (hHolder :
      ∀ q ∈ reports, ∀ a, q.referrer = some a → tag a ≠ 0)
    (hReferee : ∀ q ∈ reports, tag q.referee ≠ 0) :
    GraphOf h array
      (Function.update tag o info.currentTag) reports
      (info.addNewVertex (h.size o)).2 := by
  have hVertices := hGraph.vertices
  have hKeep :
      ∀ p, tag p ≠ 0 →
        Function.update tag o info.currentTag p = tag p := by
    intro p hNe
    apply Function.update_of_ne
    intro hEq
    exact hNe (by rw [hEq, hZero])
  have hCongr :
      ∀ u,
        neighbours array
            (Function.update tag o info.currentTag) reports
            u =
          neighbours array tag reports u :=
    fun u => neighbours_congr
      (fun q hMem a hReferrer =>
        hKeep a (hHolder q hMem a hReferrer))
      (fun q hMem => hKeep _ (hReferee q hMem))
  refine ⟨hVertices.addNewVertex hZero.le, ?_⟩
  intro u hRange
  rw [hCongr u]
  change read (info.graph ++ [[]]) u = _
  by_cases hLast : u = info.graph.length
  · rw [hLast, read_append_last, neighbours_eq_nil]
    intro q hMem a hReferrer _
    rw [← hVertices.current]
    exact (hVertices.lt a).ne
  · apply read_append_left
    apply hGraph.graph u
    rcases hRange with ⟨hNonneg, hLt⟩
    change u < (info.graph ++ [[]]).length at hLt
    rw [List.length_append, List.length_singleton] at hLt
    refine ⟨hNonneg, ?_⟩
    omega

------------------------------------------------------------
-- Reports
------------------------------------------------------------

variable {state :
  Worklist.State N (Report N) (Tagged N jlong UserData)}

/- The holder of a pending report is the array or a vertex. -/
theorem Recorded.referrer
    (hRecorded :
      Recorded h array objects before reports n state)
    (hMet :
      r ∈ reports.take n ∨ r ∈ state.pending) :
    ∃ a, a ∈ state.expanded ∧ r.referrer = some a ∧
      r.reference ∈ h.references a ∧
      (a = array ∨ 0 < state.data.tag a) := by
  rcases hRecorded.counted.known r hMet with
    ⟨a, hExpanded, hOut⟩
  rcases (h.mem_reportsOf_iff a r).mp hOut with
    ⟨hReferrer, hMem⟩
  exact ⟨a, hExpanded, hReferrer, hMem,
    hRecorded.expanded a hExpanded⟩

/- What a report does besides what it does to the data. -/
theorem Recorded.after
    (hRecorded :
      Recorded h array objects before reports n state)
    (hAt : reports[n]? = some r)
    (hPending : r ∈ state.pending)
    {tag : N → jlong}
    {info : HeapDumpInfo}
    {signal : Worklist.Signal}
    (hData :
      (h.invoke secondTraversal r state.data).1 =
        ⟨tag, .ok info⟩)
    (hSignal :
      (h.invoke secondTraversal r state.data).2 = signal)
    (hNotStop : signal ≠ .stop)
    (hArray : r ∈ h.reportsOf array → signal = .visit)
    (hVisit : signal = .visit → 0 < tag r.referee)
    (hSettled : tag r.referee ≠ 0)
    (hGraph :
      GraphOf h array tag (reports.take (n + 1)) info)
    (hOther :
      ∀ o, o ≠ r.referee → tag o = state.data.tag o)
    (hSelf :
      tag r.referee = state.data.tag r.referee ∨
        (state.data.tag r.referee = 0 ∧
          before r.referee = 0 ∧ 0 < tag r.referee ∧
          signal = .visit ∧
          ∃ s ∈ objects, h.Reachable s r.referee)) :
    Recorded h array objects before reports (n + 1)
      (Worklist.report h.graph (h.invoke secondTraversal) r
        state) := by
  have hData' :
      (Worklist.report h.graph (h.invoke secondTraversal) r
        state).data = ⟨tag, .ok info⟩ := by
    rw [Worklist.report_data, hData]
  have hStop :
      (h.invoke secondTraversal r state.data).2 ≠ .stop := by
    rw [hSignal]
    exact hNotStop
  have hExpanded :
      ∀ o, o ∈ (Worklist.report h.graph
          (h.invoke secondTraversal) r state).expanded ↔
        o ∈ state.expanded ∨
          (signal = .visit ∧ o = r.referee) := by
    intro o
    rw [Worklist.mem_expanded_report, hSignal]
    rfl
  have hRest :
      ∀ other, other ∈ state.pending → other ≠ r →
        other ∈ (Worklist.report h.graph
          (h.invoke secondTraversal) r state).pending :=
    fun other hMem hNe =>
      Worklist.mem_pending_report_of_ne hStop hMem hNe
  -- Tags that were set stay.
  have hKeep :
      ∀ o, state.data.tag o ≠ 0 →
        tag o = state.data.tag o := by
    intro o hNe
    by_cases hEq : o = r.referee
    · rw [hEq] at hNe ⊢
      rcases hSelf with hSame | ⟨hZero, _⟩
      · exact hSame
      · exact absurd hZero hNe
    · exact hOther o hEq
  constructor
  · exact hRecorded.counted.report hAt hPending hStop
  · rw [hData']
    exact ⟨info, rfl, hGraph⟩
  · intro o hNe
    rw [hData']
    have hOld := hRecorded.kept o hNe
    dsimp only
    rw [hKeep o (by rw [hOld]; exact hNe), hOld]
  · intro o hZero
    rw [hData']
    dsimp only
    by_cases hEq : o = r.referee
    · rw [hEq] at hZero ⊢
      rcases hSelf with hSame | ⟨_, _, hPos, _⟩
      · rw [hSame]
        exact hRecorded.nonneg _ hZero
      · exact hPos.le
    · rw [hOther o hEq]
      exact hRecorded.nonneg o hZero
  · intro o hPos
    rw [hData'] at hPos
    dsimp only at hPos
    by_cases hEq : o = r.referee
    · rw [hEq] at hPos ⊢
      rcases hSelf with hSame | ⟨_, _, _, _, hReached⟩
      · rw [hSame] at hPos
        exact hRecorded.reached _ hPos
      · exact hReached
    · rw [hOther o hEq] at hPos
      exact hRecorded.reached o hPos
  · intro o hMem
    rw [hData']
    dsimp only
    rcases (hExpanded o).mp hMem with hOld | ⟨hEq, hEqO⟩
    · rcases hRecorded.expanded o hOld with hArr | hPos
      · exact Or.inl hArr
      · rw [hKeep o hPos.ne']
        exact Or.inr hPos
    · rw [hEqO]
      exact Or.inr (hVisit hEq)
  · intro o hZero hPos
    rw [hData'] at hPos
    dsimp only at hPos
    rw [hExpanded]
    by_cases hEq : o = r.referee
    · rw [hEq] at hPos hZero ⊢
      rcases hSelf with hSame | ⟨_, _, _, hSig, _⟩
      · rw [hSame] at hPos
        exact Or.inl
          (hRecorded.new_expanded _ hZero hPos)
      · exact Or.inr ⟨hSig, rfl⟩
    · rw [hOther o hEq] at hPos
      exact Or.inl (hRecorded.new_expanded o hZero hPos)
  · intro other hMem
    by_cases hEq : other = r
    · rw [hEq] at hMem ⊢
      exact Or.inr ((hExpanded r.referee).mpr
        (Or.inr ⟨hArray hMem, rfl⟩))
    · rcases hRecorded.start other hMem with hPend | hOld
      · exact Or.inl (hRest other hPend hEq)
      · exact Or.inr ((hExpanded _).mpr (Or.inl hOld))
  · intro other hMem
    rw [hData']
    dsimp only
    rw [Heap.take_succ_of_getElem? hAt] at hMem
    rcases List.mem_append.mp hMem with hOld | hNew
    · have hNe := hRecorded.settled other hOld
      rw [hKeep _ hNe]
      exact hNe
    · rw [List.mem_singleton.mp hNew]
      exact hSettled

theorem Recorded.array_tag
    (hBefore : BeforeSecond h array objects before)
    (hRecorded :
      Recorded h array objects before reports n state) :
    state.data.tag array = mockReferrerTag := by
  have hNe : before array ≠ 0 := by
    rw [hBefore.array_tag]
    decide
  rw [hRecorded.kept array hNe]
  exact hBefore.array_tag

/- A report that keeps the tag of its referee. -/
theorem Recorded.after_same
    (hRecorded :
      Recorded h array objects before reports n state)
    (hAt : reports[n]? = some r)
    (hPending : r ∈ state.pending)
    {info : HeapDumpInfo}
    {signal : Worklist.Signal}
    (hAnswer :
      secondTraversal (h.arguments r state.data)
          state.data.user =
        (state.data.tag r.referee, .ok info, signal))
    (hNotStop : signal ≠ .stop)
    (hArray : r ∈ h.reportsOf array → signal = .visit)
    (hVisit : signal = .visit → 0 < state.data.tag r.referee)
    (hSettled : state.data.tag r.referee ≠ 0)
    (hGraph :
      GraphOf h array state.data.tag (reports.take (n + 1))
        info) :
    Recorded h array objects before reports (n + 1)
      (Worklist.report h.graph (h.invoke secondTraversal) r
        state) := by
  rcases invoke_data hAnswer with ⟨hData, hSignal⟩
  rw [Function.update_eq_self] at hData
  exact hRecorded.after hAt hPending hData hSignal hNotStop
    hArray hVisit hSettled hGraph (fun _ _ => rfl)
    (Or.inl rfl)

/- An element of the array is always visited. -/
theorem Recorded.report_element
    {info : HeapDumpInfo}
    (hBefore : BeforeSecond h array objects before)
    (hRecorded :
      Recorded h array objects before reports n state)
    (hAt : reports[n]? = some r)
    (hPending : r ∈ state.pending)
    (hUser : state.data.user = .ok info)
    (hGraph :
      GraphOf h array state.data.tag (reports.take n) info)
    (hReferrer : r.referrer = some array)
    (hElement : r.referee ∈ objects) :
    Recorded h array objects before reports (n + 1)
      (Worklist.report h.graph (h.invoke secondTraversal) r
        state) := by
  have hTagArray := hRecorded.array_tag hBefore
  have hPos := hBefore.start r.referee hElement
  have hTag : 0 < state.data.tag r.referee := by
    rw [hRecorded.kept r.referee hPos.ne']
    exact hPos
  have hAnswer :
      secondTraversal (h.arguments r state.data)
          state.data.user =
        (state.data.tag r.referee, .ok info, .visit) := by
    rw [hUser]
    simp [secondTraversal, Heap.arguments, hReferrer,
      hTagArray]
  apply hRecorded.after_same hAt hPending hAnswer
    Worklist.Signal.noConfusion
  · exact fun _ => rfl
  · exact fun _ => hTag
  · exact hTag.ne'
  · apply hGraph.skip hAt
    intro u
    unfold neighbour
    rw [hReferrer]
    exact if_neg (fun hAll => hAll.1 rfl)

/- A new referee gets a vertex, which the edge leads to. -/
theorem Recorded.report_new
    {info : HeapDumpInfo}
    (hBefore : BeforeSecond h array objects before)
    (hRecorded :
      Recorded h array objects before reports n state)
    (hAt : reports[n]? = some r)
    (hPending : r ∈ state.pending)
    (hUser : state.data.user = .ok info)
    (hGraph :
      GraphOf h array state.data.tag (reports.take n) info)
    (hReferrer : r.referrer = some a)
    (hRefers : h.Refers a r.referee)
    (hKind : r.reference.kind.isJni = false)
    (hEqA : a ≠ array)
    (hPosA : 0 < state.data.tag a)
    (hMock : state.data.tag a ≠ mockReferrerTag)
    (hZero : state.data.tag r.referee = 0) :
    Recorded h array objects before reports (n + 1)
      (Worklist.report h.graph (h.invoke secondTraversal) r
        state) := by
  have hTagArray := hRecorded.array_tag hBefore
  have hBeforeR : before r.referee = 0 := by
    by_contra hNot
    exact hNot
      ((hRecorded.kept r.referee hNot).symm.trans hZero)
  have hNeR : a ≠ r.referee := by
    intro hEq
    rw [hEq, hZero] at hPosA
    exact absurd hPosA (lt_irrefl _)
  have hNew :=
    hGraph.addNewVertex hZero
      (fun q hTaken p hReferrerQ => by
        rcases hRecorded.referrer (Or.inl hTaken) with
          ⟨p', _, hReferrer', _, hEq | hPos⟩
        · rw [hReferrerQ] at hReferrer'
          rw [Option.some.inj hReferrer', hEq, hTagArray]
          decide
        · rw [hReferrerQ] at hReferrer'
          rw [Option.some.inj hReferrer']
          exact hPos.ne')
      hRecorded.settled
  have hPosNew : 0 < info.currentTag := by
    rw [hGraph.vertices.current]
    exact Int.natCast_pos.mpr hGraph.vertices.pos
  have hTagA :
      Function.update state.data.tag r.referee
          info.currentTag a =
        state.data.tag a :=
    Function.update_of_ne hNeR _ _
  have hTagR :
      Function.update state.data.tag r.referee
          info.currentTag r.referee =
        info.currentTag :=
    Function.update_self _ _ _
  have hNotVisited : info.currentTag ≠ visitedTag := by
    intro hEq
    rw [hEq] at hPosNew
    exact absurd hPosNew (by decide)
  rcases hNew.addNeighbour hAt hReferrer hEqA
      (by rw [hTagA]; exact hPosA)
      (by rw [hTagR]; exact hNotVisited) with
    ⟨info', hAdd, hGraph'⟩
  rw [hTagA, hTagR] at hAdd
  have hAnswer :
      secondTraversal (h.arguments r state.data)
          state.data.user =
        (info.currentTag, .ok info', .visit) :=
    secondTraversal_new hReferrer hNeR hMock hKind hZero
      hUser hAdd
  rcases invoke_data hAnswer with ⟨hData, hSignal⟩
  rcases hRecorded.reached a hPosA with ⟨s, hS, hPath⟩
  apply hRecorded.after hAt hPending hData hSignal
    Worklist.Signal.noConfusion
  · exact fun _ => rfl
  · intro _
    rw [hTagR]
    exact hPosNew
  · rw [hTagR]
    exact hPosNew.ne'
  · exact hGraph'
  · exact fun o hNe => Function.update_of_ne hNe _ _
  · refine Or.inr ⟨hZero, hBeforeR, ?_, rfl, s, hS,
      hPath.tail hRefers⟩
    rw [hTagR]
    exact hPosNew

/- Every report of the second traversal keeps the invariant. -/
theorem Recorded.report
    (hElements : ∀ b, h.Refers array b ↔ b ∈ objects)
    (hBefore : BeforeSecond h array objects before)
    (hRecorded :
      Recorded h array objects before reports n state)
    (hAt : reports[n]? = some r)
    (hPending : r ∈ state.pending) :
    Recorded h array objects before reports (n + 1)
      (Worklist.report h.graph (h.invoke secondTraversal) r
        state) := by
  rcases hRecorded.user with ⟨info, hUser, hGraph⟩
  rcases hRecorded.referrer (Or.inr hPending) with
    ⟨a, _, hReferrer, hMem, hHolder⟩
  have hRefers : h.Refers a r.referee :=
    ⟨r.reference, hMem, rfl⟩
  have hKind : r.reference.kind.isJni = false :=
    HeapReferenceKind.not_isJni_of_isHeld
      (h.references_isHeld a r.reference hMem)
  by_cases hEqA : a = array
  · rw [hEqA] at hReferrer hRefers
    exact hRecorded.report_element hBefore hAt hPending hUser
      hGraph hReferrer ((hElements r.referee).mp hRefers)
  have hPosA : 0 < state.data.tag a :=
    hHolder.resolve_left hEqA
  have hMock : state.data.tag a ≠ mockReferrerTag := by
    intro hEq
    rw [hEq] at hPosA
    exact absurd hPosA (by decide)
  have hNotArray : r ∉ h.reportsOf array := by
    intro hIn
    have hEq := ((h.mem_reportsOf_iff array r).mp hIn).1
    rw [hReferrer] at hEq
    exact hEqA (Option.some.inj hEq)
  by_cases hVisited :
      state.data.tag r.referee = visitedTag
  · have hAnswer :
        secondTraversal (h.arguments r state.data)
            state.data.user =
          (state.data.tag r.referee, .ok info, .skip) := by
      rw [hUser]
      simp [secondTraversal, Heap.arguments, hReferrer,
        hMock, hVisited]
    apply hRecorded.after_same hAt hPending hAnswer
      Worklist.Signal.noConfusion
    · exact fun hIn => absurd hIn hNotArray
    · exact Worklist.Signal.noConfusion
    · rw [hVisited]
      decide
    · apply hGraph.skip hAt
      intro u
      unfold neighbour
      rw [hReferrer]
      exact if_neg (fun hAll => hAll.2.2 hVisited)
  have hVisited' :
      state.data.tag r.reference.referee ≠ visitedTag :=
    hVisited
  by_cases hZero : state.data.tag r.referee = 0
  · exact hRecorded.report_new hBefore hAt hPending hUser
      hGraph hReferrer hRefers hKind hEqA hPosA hMock hZero
  · rcases hGraph.addNeighbour hAt hReferrer hEqA hPosA
        hVisited with
      ⟨info', hAdd, hGraph'⟩
    have hZero' :
        state.data.tag r.reference.referee ≠ 0 := hZero
    have hAnswer :
        secondTraversal (h.arguments r state.data)
            state.data.user =
          (state.data.tag r.referee, .ok info', .skip) := by
      rw [hUser]
      simp [secondTraversal, Heap.arguments, hReferrer,
        hMock, hVisited', hZero', hKind, hAdd]
    apply hRecorded.after_same hAt hPending hAnswer
      Worklist.Signal.noConfusion
    · exact fun hIn => absurd hIn hNotArray
    · exact Worklist.Signal.noConfusion
    · exact hZero
    · exact hGraph'

theorem Recorded.init
    {info : HeapDumpInfo}
    (hBefore : BeforeSecond h array objects before)
    (hVertices : VertexTags h before info)
    (hNoEdges : ∀ ns ∈ info.graph, ns = []) :
    Recorded h array objects before reports 0
      (h.traversal (some array) ⟨before, .ok info⟩) := by
  have hStartOf :
      ∀ o, 0 < before o → o ∈ objects := by
    intro o hPos
    have hNe : o ≠ array := by
      intro hEq
      rw [hEq, hBefore.array_tag] at hPos
      exact absurd hPos (by decide)
    rcases hBefore.cases hNe with
      ⟨hTag, _⟩ | ⟨hTag, _, _⟩ | ⟨_, hMem⟩
    · rw [hTag] at hPos
      exact absurd hPos (by decide)
    · rw [hTag] at hPos
      exact absurd hPos (lt_irrefl _)
    · exact hMem
  refine ⟨Heap.counted_zero _ array, ⟨info, rfl, hVertices,
    ?_⟩, fun _ _ => rfl, fun _ hZero => hZero.ge, ?_, ?_, ?_,
    fun q hMem => Or.inl hMem, ?_⟩
  · intro u hRange
    rcases exists_read hRange with ⟨ns, hRead⟩
    rw [hRead, hNoEdges ns (mem_of_read hRead)]
    rfl
  · intro o hPos
    exact ⟨o, hStartOf o hPos, Relation.ReflTransGen.refl⟩
  · intro a hMem
    exact Or.inl (List.mem_singleton.mp hMem)
  · intro o hZero hPos
    exact absurd hPos (by
      change ¬ 0 < before o
      rw [hZero]
      exact lt_irrefl _)
  · intro q hMem
    exact absurd hMem List.not_mem_nil

------------------------------------------------------------
-- The Finished Dump
------------------------------------------------------------

/-
  What the dump is for: vertices above 0 are the objects
  reachable from start objects and left untagged by the
  first traversal, which leaves the tags `before`, and the
  edges among them are the references, one for each.
-/
structure WellFormedDump
    (h : Heap N)
    (objects : List N)
    (before tag : N → jlong)
    (info : HeapDumpInfo) : Prop where
  graph_length : (info.graph.length : jlong) = info.currentTag
  sizes_length : (info.sizes.length : jlong) = info.currentTag
  vertices :
    ∀ k, 0 < k → k < info.currentTag → ∃! o, tag o = k
  vertex_iff :
    ∀ o, 0 < tag o ↔
      o ∈ objects ∨
        (before o = 0 ∧ ∃ s ∈ objects, h.Reachable s o)
  size :
    ∀ o, 0 < tag o → read info.sizes (tag o) = some (h.size o)
  endpoints :
    ∀ ns ∈ info.graph, ∀ v ∈ ns, 0 ≤ v ∧ v < info.currentTag
  edges :
    ∀ a b, 0 < tag a → 0 < tag b →
      ∃ ns, read info.graph (tag a) = some ns ∧
        ns.count (tag b) =
          (h.references a).countP (fun r => r.referee = b)

/- No callback has thrown, and the dump is well formed. -/
def FinishedDump
    (h : Heap N)
    (objects : List N)
    (before : N → jlong)
    (s : Tagged N jlong UserData) : Prop :=
  ∃ info, s.user = .ok info ∧
    WellFormedDump h objects before s.tag info

section Final

variable (hBefore : BeforeSecond h array objects before)
variable (hElements : ∀ b, h.Refers array b ↔ b ∈ objects)
variable (hRecorded :
  Recorded h array objects before reports reports.length
    state)
variable (hPending : state.pending = [])
variable {o b : N}
include hBefore hRecorded

/- A tagged object is the array, outside or a vertex. -/
theorem Recorded.tag_cases
    (hNe : o ≠ array)
    (hTag : state.data.tag o ≠ 0) :
    (state.data.tag o = visitedTag ∧
        Outside h array objects o) ∨
      0 < state.data.tag o := by
  rcases hBefore.cases hNe with
    ⟨hOld, hOutside⟩ | ⟨hOld, _, _⟩ | ⟨hPos, _⟩
  · refine Or.inl ⟨?_, hOutside⟩
    rw [hRecorded.kept o (by rw [hOld]; decide)]
    exact hOld
  · exact Or.inr (lt_of_le_of_ne
      (hRecorded.nonneg o hOld) (Ne.symm hTag))
  · rw [hRecorded.kept o hPos.ne']
    exact Or.inr hPos

theorem Recorded.ne_array
    (hPos : 0 < state.data.tag o) :
    o ≠ array := by
  intro hEq
  rw [hEq, hRecorded.array_tag hBefore] at hPos
  exact absurd hPos (by decide)

theorem Recorded.not_outside
    (hPos : 0 < state.data.tag o) :
    ¬ Outside h array objects o := by
  intro hOutside
  have hOld := hBefore.outside o hOutside
  rw [hRecorded.kept o (by rw [hOld]; decide), hOld] at hPos
  exact absurd hPos (by decide)

theorem Recorded.mem_objects
    (hOld : before o ≠ 0)
    (hPos : 0 < state.data.tag o) :
    o ∈ objects := by
  have hNe := hRecorded.ne_array hBefore hPos
  rcases hBefore.cases hNe with
    ⟨_, hOutside⟩ | ⟨hZero, _, _⟩ | ⟨_, hMem⟩
  · exact absurd hOutside
      (hRecorded.not_outside hBefore hPos)
  · exact absurd hZero hOld
  · exact hMem

omit hBefore in
theorem Recorded.start_pos
    (hBefore : BeforeSecond h array objects before)
    (hMem : o ∈ objects) :
    0 < state.data.tag o := by
  have hPos := hBefore.start o hMem
  rw [hRecorded.kept o hPos.ne']
  exact hPos

include hElements hPending

/- In the end the references of every vertex are reported. -/
theorem Recorded.expanded_of_pos
    (hPos : 0 < state.data.tag o) :
    o ∈ state.expanded := by
  by_cases hZero : before o = 0
  · exact hRecorded.new_expanded o hZero hPos
  · have hMem := hRecorded.mem_objects hBefore hZero hPos
    rcases (hElements o).mpr hMem with ⟨ref, hRef, hEq⟩
    have hReport : ⟨some array, ref⟩ ∈ h.reportsOf array :=
      (h.mem_reportsOf_iff array _).mpr ⟨rfl, hRef⟩
    rcases hRecorded.start _ hReport with hPend | hDone
    · rw [hPending] at hPend
      exact absurd hPend List.not_mem_nil
    · have hReferee :
          (⟨some array, ref⟩ : Report N).referee = o := hEq
      rw [hReferee] at hDone
      exact hDone

theorem Recorded.mem_reports
    (hPos : 0 < state.data.tag a)
    (hRefers : h.Refers a b) :
    ∃ q ∈ reports, q.referrer = some a ∧ q.referee = b := by
  rcases hRefers with ⟨ref, hRef, hEq⟩
  have hExpanded :=
    hRecorded.expanded_of_pos hBefore hElements hPending hPos
  have hReport : ⟨some a, ref⟩ ∈ h.reportsOf a :=
    (h.mem_reportsOf_iff a _).mpr ⟨rfl, hRef⟩
  have hPerm := hRecorded.counted.perm hPending hExpanded
  have hMem := hPerm.mem_iff.mpr hReport
  exact ⟨⟨some a, ref⟩, (List.mem_filter.mp hMem).1, rfl,
    hEq⟩

theorem Recorded.tag_ne_zero
    (hPos : 0 < state.data.tag a)
    (hRefers : h.Refers a b) :
    state.data.tag b ≠ 0 := by
  rcases hRecorded.mem_reports hBefore hElements hPending
      hPos hRefers with
    ⟨q, hMem, _, hEq⟩
  rw [← hEq]
  apply hRecorded.settled q
  rw [List.take_length]
  exact hMem

/- All that start objects reach is tagged in the end. -/
theorem Recorded.reached_cases
    {s : N}
    (hStart : s ∈ objects)
    (hPath : h.Reachable s o) :
    o = array ∨ Outside h array objects o ∨
      0 < state.data.tag o := by
  induction hPath with
  | refl =>
      exact Or.inr (Or.inr
        (hRecorded.start_pos hBefore hStart))
  | @tail p q _ hRefers ih =>
      by_cases hArray : q = array
      · exact Or.inl hArray
      by_cases hMem : q ∈ objects
      · exact Or.inr (Or.inr
          (hRecorded.start_pos hBefore hMem))
      rcases ih with hEq | hOutside | hPos
      · rw [hEq] at hRefers
        exact absurd ((hElements q).mp hRefers) hMem
      · exact Or.inr (Or.inl
          (Heap.ReachedAvoiding.step hOutside hRefers
            (not_or.mpr ⟨hMem, hArray⟩)))
      · have hTag :=
          hRecorded.tag_ne_zero hBefore hElements hPending
            hPos hRefers
        rcases hRecorded.tag_cases hBefore hArray hTag with
          ⟨_, hOutside⟩ | hPosQ
        · exact Or.inr (Or.inl hOutside)
        · exact Or.inr (Or.inr hPosQ)

theorem Recorded.vertex_iff :
    0 < state.data.tag o ↔
      o ∈ objects ∨
        (before o = 0 ∧ ∃ s ∈ objects, h.Reachable s o) := by
  constructor
  · intro hPos
    by_cases hZero : before o = 0
    · exact Or.inr ⟨hZero, hRecorded.reached o hPos⟩
    · exact Or.inl
        (hRecorded.mem_objects hBefore hZero hPos)
  · rintro (hMem | ⟨hZero, s, hS, hPath⟩)
    · exact hRecorded.start_pos hBefore hMem
    · rcases hRecorded.reached_cases hBefore hElements
          hPending hS hPath with
        hEq | hOutside | hPos
      · rw [hEq, hBefore.array_tag] at hZero
        exact absurd hZero (by decide)
      · rw [hBefore.outside o hOutside] at hZero
        exact absurd hZero (by decide)
      · exact hPos

theorem Recorded.count_edges
    {info : HeapDumpInfo}
    (hGraph : GraphOf h array state.data.tag reports info)
    (hPosA : 0 < state.data.tag a)
    (hPosB : 0 < state.data.tag b) :
    ∃ ns, read info.graph (state.data.tag a) = some ns ∧
      ns.count (state.data.tag b) =
        (h.references a).countP (fun r => r.referee = b) := by
  have hVertices := hGraph.vertices
  have hRange :
      InRange info.graph.length (state.data.tag a) := by
    refine ⟨hPosA.le, ?_⟩
    rw [← hVertices.current]
    exact hVertices.lt a
  have hNotVisited : state.data.tag b ≠ visitedTag := by
    intro hEq
    rw [hEq] at hPosB
    exact absurd hPosB (by decide)
  have hExpanded :=
    hRecorded.expanded_of_pos hBefore hElements hPending
      hPosA
  refine ⟨_, hGraph.graph _ hRange, ?_⟩
  rw [count_neighbours (hRecorded.ne_array hBefore hPosA)
    (fun p hEq => (hVertices.inj a p hPosA hEq.symm).symm)
    (fun p hEq => (hVertices.inj b p hPosB hEq.symm).symm)
    hNotVisited]
  rw [(hRecorded.counted.perm hPending hExpanded).countP_eq]
  unfold Heap.reportsOf
  rw [List.countP_map]
  rfl

/-
  The dump is well formed unless a vertex refers to the
  array, which gives an edge with the tag of the array.
-/
theorem Recorded.wellFormed_iff
    (hNot : array ∉ objects)
    {info : HeapDumpInfo}
    (hGraph : GraphOf h array state.data.tag reports info) :
    WellFormedDump h objects before state.data.tag info ↔
      ∀ o, Held h array objects o → ¬ h.Refers o array := by
  have hVertices := hGraph.vertices
  have hIff := fun o =>
    hRecorded.vertex_iff (o := o) hBefore hElements hPending
  constructor
  · rintro hFormed o ⟨hReached, hNotOutside⟩ hRefers
    have hNe : o ≠ array := by
      intro hEq
      rw [hEq] at hRefers
      exact hNot ((hElements array).mp hRefers)
    have hPos : 0 < state.data.tag o := by
      rw [hIff o]
      by_cases hMem : o ∈ objects
      · exact Or.inl hMem
      · exact Or.inr
          ⟨hBefore.others o hMem hNe hNotOutside, hReached⟩
    have hRange :
        InRange info.graph.length (state.data.tag o) := by
      refine ⟨hPos.le, ?_⟩
      rw [← hVertices.current]
      exact hVertices.lt o
    rcases hRecorded.mem_reports hBefore hElements hPending
        hPos hRefers with
      ⟨q, hMem, hReferrer, hReferee⟩
    have hTagArray := hRecorded.array_tag hBefore
    have hEdge :
        mockReferrerTag ∈
          neighbours array state.data.tag reports
            (state.data.tag o) := by
      apply mem_neighbours_iff.mpr
      refine ⟨q, hMem, o, hReferrer, hNe, rfl, ?_, ?_⟩
      · rw [hReferee, hTagArray]
        decide
      · rw [hReferee]
        exact hTagArray
    have hNonneg :=
      (hFormed.endpoints _
        (mem_of_read (hGraph.graph _ hRange)) _ hEdge).1
    exact absurd hNonneg (by decide)
  · intro hCondition
    refine ⟨hVertices.current.symm, ?_, ?_, hIff,
      hVertices.size, ?_, ?_⟩
    · rw [hVertices.sizes_length]
      exact hVertices.current.symm
    · intro k hPos hLt
      rcases hVertices.surj k hPos hLt with ⟨o, hTag⟩
      refine ⟨o, hTag, ?_⟩
      intro p hTagP
      have hPosO : 0 < state.data.tag o := by
        rw [hTag]
        exact hPos
      exact (hVertices.inj o p hPosO
        (hTag.trans hTagP.symm)).symm
    · intro ns hNs v hV
      rcases exists_read_of_mem hNs with ⟨u, hRead⟩
      rw [hGraph.graph u (inRange_of_read hRead)] at hRead
      rw [← Option.some.inj hRead] at hV
      rcases mem_neighbours_iff.mp hV with
        ⟨q, hMem, a, hReferrer, hNe, _, hNotVisited, hEq⟩
      have hTaken : q ∈ reports.take reports.length := by
        rw [List.take_length]
        exact hMem
      rcases hRecorded.referrer (Or.inl hTaken) with
        ⟨a', _, hReferrer', hRef, hHolder⟩
      have hSame : a' = a := by
        rw [hReferrer] at hReferrer'
        exact (Option.some.inj hReferrer').symm
      rw [hSame] at hRef hHolder
      have hPosA := hHolder.resolve_left hNe
      have hRefers : h.Refers a q.referee :=
        ⟨q.reference, hRef, rfl⟩
      have hNotArray : q.referee ≠ array := by
        intro hArray
        rw [hArray] at hRefers
        exact hCondition a
          ⟨hRecorded.reached a hPosA,
            hRecorded.not_outside hBefore hPosA⟩
          hRefers
      rw [← hEq]
      refine ⟨?_, hVertices.lt _⟩
      rcases hRecorded.tag_cases hBefore hNotArray
          (hRecorded.settled q hTaken) with
        ⟨hVisited, _⟩ | hPos
      · exact absurd hVisited hNotVisited
      · exact hPos.le
    · intro a b hPosA hPosB
      exact hRecorded.count_edges hBefore hElements hPending
        hGraph hPosA hPosB

end Final

------------------------------------------------------------
-- An Array among Its Elements
------------------------------------------------------------

/- A vertex that no object has. -/
structure LostVertex
    (k : jlong)
    (s : Tagged N jlong UserData) : Prop where
  lost : ∀ o, s.tag o ≠ k
  below : ∀ info, s.user = .ok info → k < info.currentTag

/- A callback that gives no object the tag. -/
theorem LostVertex.followReferences
    {k : jlong}
    {initialObject : Option N}
    {callback : HeapReferenceCallback jlong UserData}
    {s : Tagged N jlong UserData}
    (hAnswer :
      ∀ args info,
        args.tag ≠ k → k < info.currentTag →
          (callback args (.ok info)).1 ≠ k ∧
            ∀ info',
              (callback args (.ok info)).2.1 = .ok info' →
                k < info'.currentTag)
    (hError :
      ∀ args message,
        (callback args (.error message)).1 = args.tag ∧
          ∃ message',
            (callback args (.error message)).2.1 =
              .error message')
    (hLost : LostVertex k s) :
    LostVertex k
      (h.followReferences initialObject callback s
        reports) := by
  apply Worklist.replay_data_invariant (LostVertex k)
  swap
  · cases initialObject with
    | none => exact hLost
    | some a => exact hLost
  · intro s r hLost
    cases hUser : s.user with
    | error message =>
        rcases hError (h.arguments r s) message with
          ⟨hTag, message', hEq⟩
        constructor
        · intro o
          rw [Heap.invoke_tag, hUser, hTag]
          by_cases hO : o = r.referee
          · rw [hO, Function.update_self]
            exact hLost.lost _
          · rw [Function.update_of_ne hO]
            exact hLost.lost o
        · intro info hOk
          rw [Heap.invoke_user, hUser, hEq] at hOk
          cases hOk
    | ok info =>
        rcases hAnswer (h.arguments r s) info
            (hLost.lost r.referee) (hLost.below info hUser)
          with ⟨hTag, hBelow⟩
        constructor
        · intro o
          rw [Heap.invoke_tag, hUser]
          by_cases hO : o = r.referee
          · rw [hO, Function.update_self]
            exact hTag
          · rw [Function.update_of_ne hO]
            exact hLost.lost o
        · intro info' hOk
          rw [Heap.invoke_user, hUser] at hOk
          exact hBelow info' hOk

theorem visitStartVertex_currentTag
    {info info' : HeapDumpInfo}
    (hVisit : info.visitStartVertex u = .ok info') :
    info'.currentTag = info.currentTag := by
  unfold HeapDumpInfo.visitStartVertex at hVisit
  split at hVisit
  · cases hVisit
  · cases hVisit
    rfl

theorem LostVertex.first
    {k : jlong}
    {s : Tagged N jlong UserData}
    (hPos : 0 < k)
    (hLost : LostVertex k s) :
    LostVertex k
      (h.followReferences none firstTraversal s reports) := by
  have hVisited : visitedTag ≠ k := by
    intro hEq
    rw [← hEq] at hPos
    exact absurd hPos (by decide)
  refine hLost.followReferences ?_
    (fun args message => ⟨rfl, message, rfl⟩)
  intro args info hTag hBelow
  dsimp only [firstTraversal]
  split_ifs
  · exact ⟨hTag, fun _ hOk => by cases hOk; exact hBelow⟩
  · exact ⟨hVisited, fun _ hOk => by cases hOk; exact hBelow⟩
  · cases hVisit : info.visitStartVertex args.tag with
    | error message =>
        exact ⟨hTag, fun _ hOk => by cases hOk⟩
    | ok info' =>
        refine ⟨hTag, fun _ hOk => ?_⟩
        cases hOk
        rw [visitStartVertex_currentTag hVisit]
        exact hBelow
  · exact ⟨hTag, fun _ hOk => by cases hOk; exact hBelow⟩
  · exact ⟨hTag, fun _ hOk => by cases hOk; exact hBelow⟩

theorem LostVertex.second
    {k : jlong}
    {s : Tagged N jlong UserData}
    (hLost : LostVertex k s) :
    LostVertex k
      (h.followReferences (some array) secondTraversal s
        reports) := by
  refine hLost.followReferences ?_
    (fun args message => ⟨rfl, message, rfl⟩)
  intro args info hTag hBelow
  let added := info.addNewVertex args.size
  have hAdded {parent : jlong} {info' : HeapDumpInfo}
      (hAdd :
        added.2.addNeighbour parent added.1 = .ok info') :
      k < info'.currentTag := by
    rw [addNeighbour_currentTag hAdd]
    exact hBelow.trans (Int.lt_succ _)
  cases hReferrer : args.referrerTag with
  | none =>
      simp only [secondTraversal, hReferrer]
      exact ⟨hTag, fun _ hOk => by cases hOk⟩
  | some referrerTag =>
      simp only [secondTraversal, hReferrer]
      split_ifs
      · exact ⟨hTag,
          fun _ hOk => by cases hOk; exact hBelow⟩
      · exact ⟨hTag,
          fun _ hOk => by cases hOk; exact hBelow⟩
      · cases hAdd :
            added.2.addNeighbour added.1 added.1 with
        | error message =>
            exact ⟨hBelow.ne', fun _ hOk => by cases hOk⟩
        | ok info' =>
            refine ⟨hBelow.ne', fun _ hOk => ?_⟩
            cases hOk
            exact hAdded hAdd
      · cases hAdd :
            added.2.addNeighbour referrerTag added.1 with
        | error message =>
            exact ⟨hBelow.ne', fun _ hOk => by cases hOk⟩
        | ok info' =>
            refine ⟨hBelow.ne', fun _ hOk => ?_⟩
            cases hOk
            exact hAdded hAdd
      · cases hAdd :
            info.addNeighbour referrerTag args.tag with
        | error message =>
            exact ⟨hTag, fun _ hOk => by cases hOk⟩
        | ok info' =>
            refine ⟨hTag, fun _ hOk => ?_⟩
            cases hOk
            rw [addNeighbour_currentTag hAdd]
            exact hBelow

/- The tag of the array replaces that of its vertex. -/
theorem lostVertex_tagObjects
    (hMem : array ∈ objects) :
    ∃ k, 0 < k ∧
      LostVertex k
        ⟨(tagObjects h array objects (fun _ => 0)).tag,
          .ok (tagObjects h array objects
            (fun _ => 0)).user⟩ := by
  have hInit :
      StartLoop h (fun _ => 0) []
        ⟨fun _ => 0, HeapDumpInfo.initial⟩ :=
    startLoop_init (fun o (_ : o ∈ objects) => Or.inl rfl)
      (fun _ _ => rfl)
  have hLoop := hInit.foldl objects (fun _ _ => Or.inl rfl)
  rw [List.nil_append] at hLoop
  have hPos := hLoop.numbered array hMem
  refine ⟨_, hPos, ?_, ?_⟩
  · intro o hEq
    dsimp only at hEq
    by_cases hO : o = array
    · rw [hO] at hEq
      unfold tagObjects at hEq
      rw [Tagged.setTag_tag_self] at hEq
      rw [← hEq] at hPos
      exact absurd hPos (by decide)
    · unfold tagObjects at hEq
      rw [Tagged.setTag_tag_of_ne _ _ hO] at hEq
      exact hO (hLoop.vertices.inj array o hPos hEq.symm).symm
  · intro info hOk
    cases hOk
    exact hLoop.vertices.lt array

------------------------------------------------------------
-- The Dump after Both Traversals
------------------------------------------------------------

/-
  The dump is well formed if and only if the array is none
  of its elements and no object that gets a vertex refers to
  the array.
-/
theorem dump_wellFormed_iff
    {first second : List (Report N)}
    (hElements : ∀ b, h.Refers array b ↔ b ∈ objects)
    (hTraversed :
      Traversed h array objects (fun _ => 0) first second) :
    FinishedDump h objects
        (traverseFirst h
          (tagObjects h array objects (fun _ => 0)) first).tag
        (traverseSecond h array
          (traverseFirst h
            (tagObjects h array objects (fun _ => 0)) first)
          second) ↔
      array ∉ objects ∧
        ∀ o, Held h array objects o →
          ¬ h.Refers o array := by
  by_cases hMem : array ∈ objects
  · refine iff_of_false ?_ (fun hAll => hAll.1 hMem)
    rintro ⟨info, hUser, hFormed⟩
    rcases lostVertex_tagObjects (h := h) hMem with
      ⟨k, hPos, hStart⟩
    have hLost :
        LostVertex k
          (traverseSecond h array
            (traverseFirst h
              (tagObjects h array objects (fun _ => 0))
              first)
            second) :=
      (hStart.first hPos).second
    rcases hFormed.vertices k hPos
        (hLost.below info hUser) with
      ⟨o, hTag, _⟩
    exact hLost.lost o hTag
  · have hStart :=
      tagObjects_startTags (h := h) hMem
        (fun _ _ => Or.inl rfl) (fun _ _ => rfl)
    rcases traverseFirst_between hStart
        hTraversed.first_complete with
      ⟨before, visited, hBetween, hFirst, _⟩
    have hSecond := hTraversed.second_complete
    rw [hBetween] at hSecond ⊢
    have hBefore := hFirst.beforeSecond hStart
    have hFinal :=
      Worklist.replay_steps
        (Recorded h array objects before second)
        (fun n state r hRecorded hAt hPending =>
          hRecorded.report hElements hBefore hAt hPending)
        hSecond.1.1
        (Recorded.init hBefore (hFirst.dump hStart).vertices
          hStart.no_edges)
    rcases hFinal.user with ⟨info, hUser, hGraph⟩
    rw [List.take_length] at hGraph
    have hIff :=
      hFinal.wellFormed_iff hBefore hElements hSecond.1.2
        hMem hGraph
    have hUser' :
        (traverseSecond h array
          ⟨before, .ok (firstDump
            (tagObjects h array objects (fun _ => 0))
            visited)⟩ second).user = .ok info :=
      hUser
    constructor
    · rintro ⟨info', hOk, hFormed⟩
      rw [hUser'] at hOk
      cases hOk
      exact ⟨hMem, hIff.mp hFormed⟩
    · rintro ⟨_, hCondition⟩
      exact ⟨info, hUser', hIff.mpr hCondition⟩

/- Array 1 of object 0, which may refer back to the array. -/
def singleton (refersBack : Bool) : Heap (Fin 2) where
  roots := [⟨.thread, .none, 0⟩]
  references := fun o =>
    if o = 1 then [⟨.arrayElement, .index 0, 0⟩]
    else if refersBack then [⟨.field, .index 0, 1⟩]
    else []
  size := fun _ => 16
  classOf := id
  roots_isRoot := by decide
  references_isHeld := by revert refersBack; decide
  size_pos := fun _ => sixteen_pos

def singletonFirst : List (Report (Fin 2)) :=
  [⟨none, ⟨.thread, .none, 0⟩⟩]

theorem dump_wellFormed_iff_singleton :
    FinishedDump (singleton false) [0]
      (traverseFirst (singleton false)
        (tagObjects (singleton false) 1 [0] (fun _ => 0))
        singletonFirst).tag
      (traverseSecond (singleton false) 1
        (traverseFirst (singleton false)
          (tagObjects (singleton false) 1 [0] (fun _ => 0))
          singletonFirst)
        [⟨some 1, ⟨.arrayElement, .index 0, 0⟩⟩]) := by
  have hNone : ∀ o, ¬ (singleton false).Refers o 1 := by
    unfold Heap.Refers
    decide
  apply (dump_wellFormed_iff ?_ ⟨?_, ?_⟩).mpr ⟨?_, ?_⟩
  · unfold Heap.Refers
    decide
  · decide +kernel
  · decide +kernel
  · decide
  · exact fun o _ => hNone o

theorem not_dump_wellFormed :
    ¬ ∀ (h : Heap (Fin 2)) (array : Fin 2)
        (objects : List (Fin 2))
        (first second : List (Report (Fin 2))),
      (∀ b, h.Refers array b ↔ b ∈ objects) →
      Traversed h array objects (fun _ => 0) first second →
        FinishedDump h objects
          (traverseFirst h
            (tagObjects h array objects (fun _ => 0))
            first).tag
          (traverseSecond h array
            (traverseFirst h
              (tagObjects h array objects (fun _ => 0))
              first)
            second) := by
  intro hAll
  let second : List (Report (Fin 2)) :=
    [⟨some 1, ⟨.arrayElement, .index 0, 0⟩⟩,
      ⟨some 0, ⟨.field, .index 0, 1⟩⟩]
  have hElements :
      ∀ b, (singleton true).Refers 1 b ↔ b ∈ [0] := by
    unfold Heap.Refers
    decide
  rcases hAll (singleton true) 1 [0] singletonFirst second
      hElements ⟨by decide +kernel, by decide +kernel⟩ with
    ⟨info, hUser, hFormed⟩
  have hGraph : info.graph = [[], [mockReferrerTag]] := by
    have hRun :
        (traverseSecond (singleton true) 1
          (traverseFirst (singleton true)
            (tagObjects (singleton true) 1 [0] (fun _ => 0))
            singletonFirst)
          second).user.map HeapDumpInfo.graph =
            .ok [[], [mockReferrerTag]] := by
      decide +kernel
    rw [hUser] at hRun
    exact Except.ok.inj hRun
  have hRange :=
    hFormed.endpoints [mockReferrerTag] (by simp [hGraph])
      mockReferrerTag (List.mem_singleton_self _)
  exact absurd hRange.1 (by decide)

end ViaDominatorTree

end MemoryAgent
