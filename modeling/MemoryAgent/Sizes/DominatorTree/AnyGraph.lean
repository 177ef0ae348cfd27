import MemoryAgent.Sizes.DominatorTree.Unreached

/-
  The computation on a graph that may have vertices the root
  does not reach.  The values that the correction loop
  assigns to the dominators of the reached vertices are
  right, but it also counts children: there are only as many
  counters as vertices that are reached, and a vertex is the
  index of its counter.

  Key definitions include:
    * `DominatorTree.immediateDominators`
    * `DominatorTree.FindsIdoms`
    * `DominatorTree.IdomsBelowCount`
    * `DominatorTree.leafQueue`
    * `DominatorTree.CalculatesSafely`

  Main results:
    * `DominatorTree.immediateDominators_isIdom`
    * `DominatorTree.findsIdoms_iff`
    * `DominatorTree.calculatesSafely_iff`
-/

------------------------------------------------------------
-- Immediate Dominators
------------------------------------------------------------

namespace MemoryAgent

namespace DominatorTree

open StdVector Dominance

/-
  The assignments of the correction loop to the dominators.
  The loop itself, with its counters, is `correctionLoop`.
-/
def correctDoms
    (vertex semi : jlongs)
    (n : jlong)
    (dom : jlongs) : Option jlongs :=
  (fromOne n).foldlM
    (fun dom i => do
      let w ← read vertex i
      correctDom vertex semi w dom)
    dom

/- The vector of dominators after that loop. -/
def immediateDominators
    (fuel : Nat)
    (graph : graph_t) : Option jlongs := do
  let r ←
    dfs graph fuel 0 (initialNumbering graph.length)
  let s ←
    mainLoop fuel r (r.n - 1).toNat
      (initialDominators graph.length r.semi)
  let dom ← write s.dom 0 (-1)
  correctDoms r.vertex s.semi r.n dom

variable {g : FlowGraph}
variable {r : Search}
variable {fuel : Nat}
variable {v w : jlong}

/- One iteration writes what it writes with counters. -/
theorem correctionStep_dom
    {vertex semi : jlongs}
    {s s' : Children}
    {i : jlong}
    (hStep : correctionStep vertex semi s i = some s') :
    (do
      let w ← read vertex i
      correctDom vertex semi w s.dom) = some s'.dom := by
  unfold correctionStep at hStep
  simp only [Option.bind_eq_bind, Option.bind_eq_some_iff]
    at hStep
  rcases hStep with
    ⟨w, hRead, dom, hCorrect, _, _, _, _, hEq⟩
  rw [← Option.some.inj hEq]
  simp [hRead, hCorrect]

theorem correctionLoop_dom
    {vertex semi : jlongs}
    {n : jlong}
    {s s' : Children}
    (hLoop : correctionLoop vertex semi n s = some s') :
    correctDoms vertex semi n s.dom = some s'.dom := by
  unfold correctionLoop at hLoop
  unfold correctDoms
  generalize fromOne n = is at hLoop ⊢
  induction is generalizing s with
  | nil =>
      rw [← Option.some.inj hLoop]
      rfl
  | cons i is ih =>
      rw [List.foldlM_cons] at hLoop ⊢
      rcases Option.bind_eq_some_iff.mp hLoop with
        ⟨t, hStep, hRest⟩
      rw [correctionStep_dom hStep]
      exact ih hRest

/- The iterations up to `i`. -/
theorem correctDoms_prefix
    {s : Loop}
    {dom : jlong → jlong}
    (hComplete : r.Complete g)
    (hLoop : LoopInvariant g r 0 s)
    (hInit : DomInvariant g r 0 dom)
    (i : Nat)
    (hLt : i < r.n) :
    ∃ dom',
      ((List.range i).map
          (fun (k : Nat) => (k : jlong) + 1)).foldlM
          (fun dom j => do
            let w ← read (tabulate g.order r.vertex) j
            correctDom (tabulate g.order r.vertex)
              (tabulate g.order s.semi) w dom)
          (tabulate g.order dom) =
        some (tabulate g.order dom') ∧
      DomInvariant g r i dom' := by
  induction i with
  | zero => exact ⟨dom, rfl, hInit⟩
  | succ i ih =>
      rcases ih (by omega) with ⟨dom', hFold, hDom⟩
      rcases correctDom_spec hComplete hLoop hDom hLt with
        ⟨dom'', hCorrect, hDom', _⟩
      have hLe := hComplete.valid.n_le_order
      have hRange : InRange g.order ((i : jlong) + 1) := by
        constructor
        · omega
        · omega
      have hRead :
          read (tabulate g.order r.vertex)
              ((i : jlong) + 1) =
            some (r.nth (i + 1)) :=
        read_tabulate _ hRange
      refine ⟨dom'', ?_, hDom'⟩
      rw [List.range_succ, List.map_append,
        List.foldlM_append, hFold]
      simp [hRead, hCorrect]

theorem correctDoms_spec
    {s : Loop}
    (hComplete : r.Complete g)
    (hLoop : LoopInvariant g r 0 s) :
    ∃ dom,
      correctDoms (tabulate g.order r.vertex)
          (tabulate g.order s.semi) r.n
          (tabulate g.order
            (Function.update s.dom 0 (-1))) =
        some (tabulate g.order dom) ∧
      HasIdoms g r dom := by
  have hCast : ((r.n : jlong) - 1).toNat = r.n - 1 := by
    omega
  have hPos := hComplete.pos
  rcases correctDoms_prefix hComplete hLoop
      (correctionInvariant_init hComplete hLoop).doms
      (r.n - 1) (by omega) with
    ⟨dom, hFold, hDom⟩
  refine ⟨dom, ?_, hDom.hasIdoms hComplete⟩
  unfold correctDoms fromOne
  rw [hCast]
  exact hFold

/-
  On every graph the vector holds, for each vertex but the
  root that is reached, the immediate dominator, and with
  the counters the loop leaves no other vector.
-/
theorem immediateDominators_isIdom
    (g : FlowGraph)
    (fuel : Nat)
    (hFuel : g.order ≤ fuel) :
    ∃ dom,
      immediateDominators fuel g.edges = some dom ∧
      (∀ numbering c,
        dominators fuel g.edges = some (numbering, c) →
          c.dom = dom) ∧
      ∀ w, w ≠ 0 → g.Reachable w →
        ∃ d, read dom w = some d ∧
          IsIdom g.Edge 0 d w := by
  rcases dominators_eq hFuel with
    ⟨r, s, hComplete, hLoop, hDfs, hMain, hWrite,
      hDominators⟩
  rcases correctDoms_spec hComplete hLoop with
    ⟨dom, hCorrect, hIdoms⟩
  have hOrder : g.edges.length = g.order := rfl
  have hN : (r.numbering g.order).n = r.n := rfl
  have hVertex :
      (r.numbering g.order).vertex =
        tabulate g.order r.vertex := rfl
  have hSemi :
      (s.dominators g.order).semi =
        tabulate g.order s.semi := rfl
  refine ⟨tabulate g.order dom, ?_, ?_, ?_⟩
  · simp only [immediateDominators, hOrder, hDfs,
      Option.bind_eq_bind, Option.bind_some, hN, hMain,
      hWrite, hVertex, hSemi, hCorrect]
  · intro numbering c hSome
    rw [hDominators] at hSome
    rcases Option.map_eq_some_iff.mp hSome with
      ⟨c', hLoopC, hPair⟩
    have hSame : c' = c := congrArg Prod.snd hPair
    have hDom := correctionLoop_dom hLoopC
    rw [hCorrect] at hDom
    rw [← hSame]
    exact (Option.some.inj hDom).symm
  · intro w hRoot hReach
    have hNumbered :=
      hComplete.numbered_iff_reachable.mpr hReach
    exact ⟨dom w,
      read_tabulate _ (hComplete.inRange hNumbered),
      hIdoms.2 w (hComplete.num_pos hNumbered hRoot)⟩

/- A vertex has one immediate dominator. -/
theorem HasIdoms.unique
    {dom : jlong → jlong}
    {d : jlong}
    (hComplete : r.Complete g)
    (hIdoms : HasIdoms g r dom)
    (hNumbered : r.Numbered w)
    (hIdom : IsIdom g.Edge 0 d w) :
    0 < r.num w ∧ dom w = d := by
  have hRoot : w ≠ 0 := by
    intro hEq
    have hDom := hIdom.dominates
    rw [hEq] at hDom
    apply hIdom.ne
    rw [hEq]
    exact dominates_root_iff.mp hDom
  have hPos := hComplete.num_pos hNumbered hRoot
  have hOther := hIdoms.2 w hPos
  have hUp :=
    (up_iff_dominates hComplete hIdoms
      (idom_numbered hComplete hNumbered hOther).1).mpr
      (hOther.least d hIdom.ne hIdom.dominates)
  have hDown :=
    (up_iff_dominates hComplete hIdoms
      (idom_numbered hComplete hNumbered hIdom).1).mpr
      (hIdom.least (dom w) hOther.ne hOther.dominates)
  refine ⟨hPos, ?_⟩
  by_contra hNe
  have hLtUp :=
    hUp.rank_lt (domForest hComplete hIdoms).ranked hNe
  have hLeDown :=
    hDown.rank_le (domForest hComplete hIdoms).ranked
  omega

------------------------------------------------------------
-- The Index of a Counter
------------------------------------------------------------

/-
  `dominators` is total and leaves the immediate dominator
  of every vertex but the root that is reached.
-/
def FindsIdoms (g : FlowGraph) : Prop :=
  ∀ fuel, g.order ≤ fuel →
    ∃ numbering c,
      dominators fuel g.edges = some (numbering, c) ∧
      ∀ w, w ≠ 0 → g.Reachable w →
        ∃ d, read c.dom w = some d ∧
          IsIdom g.Edge 0 d w

open scoped Classical in
noncomputable def reachedVertices
    (g : FlowGraph) : Finset jlong :=
  (vertices g).filter g.Reachable

/-
  The immediate dominators of reached vertices are numbered
  below the count of reached vertices.
-/
def IdomsBelowCount (g : FlowGraph) : Prop :=
  ∀ d w, g.Reachable w → w ≠ 0 →
    IsIdom g.Edge 0 d w → d < (reachedVertices g).card

theorem card_reachedVertices
    (hComplete : r.Complete g) :
    (reachedVertices g).card = r.n := by
  classical
  rw [← card_numberedVertices hComplete]
  congr 1
  ext v
  unfold reachedVertices
  rw [Finset.mem_filter, mem_vertices,
    mem_numberedVertices, hComplete.numbered_iff_reachable]
  constructor
  · intro hBoth
    exact hBoth.2
  · intro hReach
    exact ⟨hComplete.inRange
      (hComplete.numbered_iff_reachable.mpr hReach), hReach⟩

theorem idomsBelowCount_iff
    (hComplete : r.Complete g) :
    IdomsBelowCount g ↔ CountedIdoms g r := by
  constructor
  · intro hBelow d w hPos hIdom
    have hNumbered := hComplete.numbered_of_num_pos hPos
    have hLt :=
      hBelow d w
        (hComplete.numbered_iff_reachable.mp hNumbered)
        (hComplete.ne_root_of_num_pos hPos) hIdom
    rw [card_reachedVertices hComplete] at hLt
    have hNumberedD :=
      (idom_numbered hComplete hNumbered hIdom).1
    exact ⟨(hComplete.inRange hNumberedD).1, hLt⟩
  · intro hCounted d w hReach hRoot hIdom
    rw [card_reachedVertices hComplete]
    have hNumbered :=
      hComplete.numbered_iff_reachable.mpr hReach
    exact (hCounted d w
      (hComplete.num_pos hNumbered hRoot) hIdom).2

/- A counted child has its dominator among the counters. -/
theorem countChild_inRange
    {d : jlong}
    {childCount childCount' : jlongs}
    (hNonneg : 0 ≤ d)
    (hCount : countChild d childCount = some childCount') :
    InRange childCount.length d ∧
      childCount'.length = childCount.length := by
  unfold countChild at hCount
  rw [if_pos hNonneg] at hCount
  rcases Option.bind_eq_some_iff.mp hCount with
    ⟨old, hRead, hWrite⟩
  exact ⟨inRange_of_read hRead, length_of_write hWrite⟩

/- One iteration that stays inside the counters. -/
theorem correctionStep_counted
    {s : Loop}
    {dom : jlong → jlong}
    {childCount : jlongs}
    {c : Children}
    {i : Nat}
    (hComplete : r.Complete g)
    (hLoop : LoopInvariant g r 0 s)
    (hDom : DomInvariant g r i dom)
    (hLt : i + 1 < r.n)
    (hStep :
      correctionStep (tabulate g.order r.vertex)
          (tabulate g.order s.semi)
          ⟨tabulate g.order dom, childCount⟩
          ((i : jlong) + 1) = some c) :
    ∃ dom',
      c.dom = tabulate g.order dom' ∧
      DomInvariant g r (i + 1) dom' ∧
      (∀ v, v ≠ r.nth (i + 1) → dom' v = dom v) ∧
      c.childCount.length = childCount.length ∧
      InRange childCount.length (dom' (r.nth (i + 1))) := by
  have hNumbered : r.Numbered (r.nth (i + 1)) :=
    ⟨i + 1, hLt, rfl⟩
  have hNum := hComplete.num_nth hLt
  have hLe := hComplete.valid.n_le_order
  have hRange : InRange g.order ((i : jlong) + 1) := by
    constructor
    · omega
    · omega
  have hRead :
      read (tabulate g.order r.vertex) ((i : jlong) + 1) =
        some (r.nth (i + 1)) :=
    read_tabulate _ hRange
  rcases correctDom_spec hComplete hLoop hDom hLt with
    ⟨dom', hCorrect, hDom', hSame⟩
  have hIdom :=
    hDom'.idom (r.nth (i + 1)) (by omega) (by omega)
  have hNumberedD :=
    (idom_numbered hComplete hNumbered hIdom).1
  unfold correctionStep at hStep
  simp only [hRead, hCorrect, Option.bind_eq_bind,
    Option.bind_some,
    read_tabulate _ (hComplete.inRange hNumbered)] at hStep
  rcases Option.bind_eq_some_iff.mp hStep with
    ⟨childCount', hCount, hEq⟩
  rw [← Option.some.inj hEq]
  have hInside :=
    countChild_inRange (hComplete.inRange hNumberedD).1
      hCount
  exact ⟨dom', rfl, hDom', hSame, hInside.2, hInside.1⟩

/- The iterations up to `i`, if none leaves the counters. -/
theorem correctionSteps_counted
    {s : Loop}
    {dom : jlong → jlong}
    {childCount : jlongs}
    {c : Children}
    (hComplete : r.Complete g)
    (hLoop : LoopInvariant g r 0 s)
    (hInit : DomInvariant g r 0 dom)
    (i : Nat)
    (hLt : i < r.n)
    (hSteps :
      ((List.range i).map
          (fun (k : Nat) => (k : jlong) + 1)).foldlM
          (correctionStep (tabulate g.order r.vertex)
            (tabulate g.order s.semi))
          ⟨tabulate g.order dom, childCount⟩ = some c) :
    ∃ dom',
      c.dom = tabulate g.order dom' ∧
      DomInvariant g r i dom' ∧
      c.childCount.length = childCount.length ∧
      ∀ w, 0 < r.num w → r.num w ≤ i →
        InRange childCount.length (dom' w) := by
  induction i generalizing c with
  | zero =>
      rw [← Option.some.inj hSteps]
      refine ⟨dom, rfl, hInit, rfl, ?_⟩
      intro w hPos hLe
      omega
  | succ i ih =>
      rw [List.range_succ, List.map_append,
        List.foldlM_append] at hSteps
      rcases Option.bind_eq_some_iff.mp hSteps with
        ⟨⟨domVector, counters⟩, hFold, hLast⟩
      rcases ih (by omega) hFold with
        ⟨dom', hVector, hDom, hLength, hInside⟩
      dsimp only at hVector hLength
      subst hVector
      have hStep :
          correctionStep (tabulate g.order r.vertex)
              (tabulate g.order s.semi)
              ⟨tabulate g.order dom', counters⟩
              ((i : jlong) + 1) = some c := by
        simpa using hLast
      rcases correctionStep_counted hComplete hLoop hDom hLt
          hStep with
        ⟨dom'', hVector', hDom', hSame, hLength', hLast⟩
      rw [hLength] at hLength' hLast
      refine ⟨dom'', hVector', hDom', hLength', ?_⟩
      intro w hPos hLe
      by_cases hEq : w = r.nth (i + 1)
      · rw [hEq]
        exact hLast
      · rw [hSame w hEq]
        apply hInside w hPos
        have hNe : r.num w ≠ i + 1 := by
          intro hNum
          apply hEq
          rw [← hNum]
          exact (hComplete.nth_num
            (hComplete.numbered_of_num_pos hPos)).symm
        omega

/-
  The loop goes through exactly if every immediate dominator
  has a counter.
-/
theorem dominators_isSome_iff
    (hComplete : r.Complete g)
    (hFuel : g.order ≤ fuel) :
    (∃ result, dominators fuel g.edges = some result) ↔
      CountedIdoms g r := by
  rcases dominators_eq hFuel with
    ⟨r', s, hComplete', hLoop, _, _, _, hDominators⟩
  have hCounted :
      CountedIdoms g r ↔ CountedIdoms g r' :=
    (idomsBelowCount_iff hComplete).symm.trans
      (idomsBelowCount_iff hComplete')
  have hZeros : zeros r'.n = tabulate r'.n (fun _ => 0) :=
    tabulate_const r'.n 0
  have hPos := hComplete'.pos
  have hCast : ((r'.n : jlong) - 1).toNat = r'.n - 1 := by
    omega
  rw [hCounted, hDominators]
  constructor
  · rintro ⟨result, hSome⟩
    rcases Option.map_eq_some_iff.mp hSome with
      ⟨c, hCorrect, _⟩
    unfold correctionLoop fromOne at hCorrect
    rw [hCast] at hCorrect
    rcases correctionSteps_counted hComplete' hLoop
        (correctionInvariant_init hComplete' hLoop).doms
        (r'.n - 1) (by omega) hCorrect with
      ⟨dom, _, hDom, _, hInside⟩
    intro d w hPosW hIdom
    have hNumbered :=
      hComplete'.numbered_of_num_pos hPosW
    have hLt := hComplete'.num_lt hNumbered
    have hOnly :=
      (hDom.hasIdoms hComplete').unique hComplete' hNumbered
        hIdom
    have hRange := hInside w hPosW (by omega)
    rw [hOnly.2] at hRange
    have hLength : (zeros r'.n).length = r'.n :=
      List.length_replicate ..
    rw [hLength] at hRange
    exact hRange
  · intro hCountedIdoms
    rcases correctionLoop_spec hComplete' hCountedIdoms
        hLoop (correctionInvariant_init hComplete' hLoop)
      with ⟨dom, count, hCorrect, _⟩
    rw [hZeros, hCorrect]
    exact ⟨_, rfl⟩

/-
  With its counters the loop yields all immediate dominators
  exactly if they are numbered below the count of reached
  vertices.
-/
theorem findsIdoms_iff
    (g : FlowGraph) :
    FindsIdoms g ↔ IdomsBelowCount g := by
  rcases exists_dfs g g.order le_rfl with
    ⟨r, _, hComplete⟩
  rw [idomsBelowCount_iff hComplete]
  constructor
  · intro hFinds
    rcases hFinds g.order le_rfl with
      ⟨numbering, c, hSome, _⟩
    exact (dominators_isSome_iff hComplete le_rfl).mp
      ⟨_, hSome⟩
  · intro hCounted fuel hFuel
    rcases (dominators_isSome_iff hComplete hFuel).mpr
        hCounted with ⟨⟨numbering, c⟩, hSome⟩
    rcases immediateDominators_isIdom g fuel hFuel with
      ⟨dom, _, hOnly, hIdoms⟩
    refine ⟨numbering, c, hSome, ?_⟩
    rw [hOnly numbering c hSome]
    exact hIdoms

/- The root reaches 3 and 1, but not 2. -/
def missedVertex : FlowGraph where
  edges := [[3], [], [], [1]]
  nonempty := by decide
  inRange := by decide

theorem not_findsIdoms :
    ¬ FindsIdoms missedVertex := by
  intro hFinds
  rcases hFinds 4 (by decide) with
    ⟨numbering, c, hSome, _⟩
  have hNone :
      (dominators 4 missedVertex.edges).isNone = true := by
    decide +kernel
  rw [hSome] at hNone
  cases hNone

------------------------------------------------------------
-- Counters
------------------------------------------------------------

/- The queue of leaves before the last loop. -/
def leafQueue
    (fuel : Nat)
    (graph : graph_t) : Option (List jlong) := do
  let (r, c) ← dominators fuel graph
  initialLeaves r.n c.childCount

/- Whether `v` has a child in the dominator tree. -/
def HasChild
    (g : FlowGraph)
    (v : jlong) : Prop :=
  ∃ w, g.Reachable w ∧ IsIdom g.Edge 0 v w

/-
  No index is outside its vector, and the leaves are the
  reached vertices but the root that have no child.
-/
def CalculatesSafely (g : FlowGraph) : Prop :=
  ∀ sizes : jlongs, sizes.length = g.order →
    ∀ fuel, g.order < fuel →
      (∃ result,
        calculateRetainedSizesViaDominatorTree fuel g.edges
          sizes = some result) ∧
      ∃ leaves,
        leafQueue fuel g.edges = some leaves ∧
        leaves.Nodup ∧
        ∀ v, v ∈ leaves ↔
          v ≠ 0 ∧ g.Reachable v ∧ ¬ HasChild g v

theorem count_eq_zero_iff
    {dom count : jlong → jlong}
    (hComplete : r.Complete g)
    (hInvariant :
      CorrectionInvariant g r (r.n - 1) dom count)
    (hNumbered : r.Numbered v) :
    count v = 0 ↔ ¬ HasChild g v := by
  have hIdoms := hInvariant.doms.hasIdoms hComplete
  rw [hInvariant.counts v (hComplete.inRange hNumbered),
    Int.natCast_eq_zero, Finset.card_eq_zero]
  constructor
  · rintro hEmpty ⟨w, hReach, hIdom⟩
    have hNumberedW :=
      hComplete.numbered_iff_reachable.mpr hReach
    have hLt := hComplete.num_lt hNumberedW
    have hChild :=
      hIdoms.unique hComplete hNumberedW hIdom
    apply Finset.notMem_empty w
    rw [← hEmpty, mem_childrenUpTo]
    exact ⟨hComplete.inRange hNumberedW, hChild.1,
      by omega, hChild.2⟩
  · intro hNone
    apply Finset.eq_empty_of_forall_notMem
    intro w hMem
    rw [mem_childrenUpTo] at hMem
    have hNumberedW :=
      hComplete.numbered_of_num_pos hMem.2.1
    apply hNone
    refine ⟨w,
      hComplete.numbered_iff_reachable.mp hNumberedW, ?_⟩
    rw [← hMem.2.2.2]
    exact hIdoms.2 w hMem.2.1

/- If the first vertices are reached, the queue is right. -/
theorem leafQueue_of_reachedBelow
    (hBelow : ReachedBelow g)
    (hFuel : g.order ≤ fuel) :
    ∃ leaves,
      leafQueue fuel g.edges = some leaves ∧
      leaves.Nodup ∧
      ∀ v, v ∈ leaves ↔
        v ≠ 0 ∧ g.Reachable v ∧ ¬ HasChild g v := by
  rcases dominators_spec hBelow hFuel with
    ⟨r, dom, count, hDominators, hComplete, hFirst,
      hInvariant⟩
  refine ⟨(fromOne r.n).filter (fun i => count i = 0), ?_,
    List.Nodup.filter _ (nodup_fromOne _), ?_⟩
  · unfold leafQueue
    rw [hDominators]
    exact initialLeaves_eq r.n le_rfl
  · intro v
    rw [List.mem_filter, mem_fromOne, decide_eq_true_iff,
      ← hFirst.numbered_iff hComplete, and_assoc]
    apply and_congr_right
    intro _
    constructor
    · rintro ⟨hNumbered, hZero⟩
      exact ⟨hComplete.numbered_iff_reachable.mp hNumbered,
        (count_eq_zero_iff hComplete hInvariant
          hNumbered).mp hZero⟩
    · rintro ⟨hReach, hNone⟩
      have hNumbered :=
        hComplete.numbered_iff_reachable.mpr hReach
      exact ⟨hNumbered,
        (count_eq_zero_iff hComplete hInvariant
          hNumbered).mpr hNone⟩

------------------------------------------------------------
-- Missed Vertices
------------------------------------------------------------

/- Only counters of reached vertices are written. -/
theorem correctionStep_count
    {vertex semi : jlongs}
    {s s' : Children}
    {i : jlong}
    (hDoms : ReachedDoms g s.dom)
    (hNot : ¬ g.Reachable v)
    (hStep : correctionStep vertex semi s i = some s') :
    read s'.childCount v = read s.childCount v := by
  unfold correctionStep at hStep
  simp only [Option.bind_eq_bind, Option.bind_eq_some_iff]
    at hStep
  rcases hStep with
    ⟨w, _, dom, hCorrect, domW, hRead, count, hCount, hEq⟩
  have hReached :=
    correctDom_reached hDoms hCorrect domW
      (mem_of_read hRead)
  rw [← Option.some.inj hEq]
  unfold countChild at hCount
  by_cases hNonneg : 0 ≤ domW
  · rw [if_pos hNonneg] at hCount
    rcases Option.bind_eq_some_iff.mp hCount with
      ⟨old, _, hWrite⟩
    apply read_of_write hWrite
    intro hEqD
    rcases hReached with hNeg | hReach
    · rw [hNeg] at hNonneg
      exact absurd hNonneg (by decide)
    · exact hNot (hEqD ▸ hReach)
  · rw [if_neg hNonneg] at hCount
    rw [← Option.some.inj hCount]

theorem correctionSteps_count
    {vertex semi : jlongs}
    (is : List jlong)
    {s s' : Children}
    (hDoms : ReachedDoms g s.dom)
    (hNot : ¬ g.Reachable v)
    (hLoop :
      is.foldlM (correctionStep vertex semi) s = some s') :
    read s'.childCount v = read s.childCount v := by
  induction is generalizing s with
  | nil => rw [← Option.some.inj hLoop]
  | cons i is ih =>
      rw [List.foldlM_cons] at hLoop
      rcases Option.bind_eq_some_iff.mp hLoop with
        ⟨t, hStep, hRest⟩
      exact
        (ih (correctionStep_reached hDoms hStep)
          hRest).trans
          (correctionStep_count hDoms hNot hStep)

/- A vertex whose counter is zero is put into the queue. -/
theorem mem_initialLeaves
    {n : jlong}
    {childCount leaves : jlongs}
    (hLeaves : initialLeaves n childCount = some leaves)
    (hMem : v ∈ fromOne n)
    (hRead : read childCount v = some 0) :
    v ∈ leaves := by
  have hAll :
      ∀ (is old new : List jlong),
        is.foldlM
            (fun leaves i => do
              let count ← read childCount i
              some (if count = 0 then leaves ++ [i]
                else leaves))
            old = some new →
          v ∈ old ∨ v ∈ is → v ∈ new := by
    intro is
    induction is with
    | nil =>
        intro old new hFold hCases
        rw [← Option.some.inj hFold]
        rcases hCases with hOld | hNil
        · exact hOld
        · exact absurd hNil List.not_mem_nil
    | cons i is ih =>
        intro old new hFold hCases
        rw [List.foldlM_cons] at hFold
        rcases Option.bind_eq_some_iff.mp hFold with
          ⟨next, hStep, hRest⟩
        rcases Option.bind_eq_some_iff.mp hStep with
          ⟨count, hCount, hEq⟩
        apply ih next new hRest
        rw [← Option.some.inj hEq]
        rcases hCases with hOld | hCons
        · apply Or.inl
          split
          · exact List.mem_append_left _ hOld
          · exact hOld
        · rcases List.mem_cons.mp hCons with hHead | hTail
          · apply Or.inl
            rw [hHead] at hRead
            rw [hRead] at hCount
            rw [if_pos (Option.some.inj hCount).symm, hHead]
            exact List.mem_append_right old
              (List.mem_singleton.mpr rfl)
          · exact Or.inr hTail
  exact hAll (fromOne n) [] leaves hLeaves (Or.inr hMem)

/- A missed vertex that has a counter is in the queue. -/
theorem mem_leafQueue_of_missed
    {leaves : jlongs}
    (hFuel : g.order ≤ fuel)
    (hQueue : leafQueue fuel g.edges = some leaves) :
    ∃ r : Search, r.Complete g ∧
      ∀ v, InRange r.n v → ¬ g.Reachable v →
        v ∈ leaves := by
  rcases dominators_eq hFuel with
    ⟨r, s, hComplete, hLoop, _, _, _, hDominators⟩
  refine ⟨r, hComplete, ?_⟩
  intro v hRange hNot
  unfold leafQueue at hQueue
  rw [hDominators] at hQueue
  rcases Option.bind_eq_some_iff.mp hQueue with
    ⟨⟨numbering, c⟩, hSome, hLeaves⟩
  rcases Option.map_eq_some_iff.mp hSome with
    ⟨c', hCorrect, hPair⟩
  have hSame : c' = c := congrArg Prod.snd hPair
  have hNumbering : r.numbering g.order = numbering :=
    congrArg Prod.fst hPair
  rw [hSame] at hCorrect
  rw [← hNumbering] at hLeaves
  have hCount :=
    correctionSteps_count _ (hLoop.reachedDoms hComplete)
      hNot hCorrect
  have hZeros : zeros r.n = tabulate r.n (fun _ => 0) :=
    tabulate_const r.n 0
  have hRoot : v ≠ 0 := by
    intro hEq
    rw [hEq] at hNot
    exact hNot FlowGraph.Reachable.root
  apply mem_initialLeaves hLeaves
    (mem_fromOne.mpr ⟨hRoot, hRange⟩)
  rw [hCount]
  change read (zeros r.n) v = some 0
  rw [hZeros]
  exact read_tabulate _ hRange

/-
  The vectors are indexed safely exactly if every vertex
  below a reached one is reached.
-/
theorem calculatesSafely_iff
    (g : FlowGraph) :
    CalculatesSafely g ↔ ReachedBelow g := by
  constructor
  · intro hSafe v w hRange hReach hLt
    by_contra hNot
    rcases hSafe (zeros g.order)
        (List.length_replicate ..) (g.order + 1)
        (Nat.lt_succ_self _) with
      ⟨_, leaves, hQueue, _, hExact⟩
    rcases mem_leafQueue_of_missed (Nat.le_succ _) hQueue
      with ⟨r, hComplete, hMissed⟩
    -- Every vertex that has a counter must be reached.
    have hFirst : ReachedFirst r := by
      apply reachedFirst_of_numbered hComplete
      intro u hRangeU
      by_contra hNotU
      have hNotReach : ¬ g.Reachable u := fun h =>
        hNotU (hComplete.numbered_iff_reachable.mpr h)
      exact hNotReach
        ((hExact u).mp (hMissed u hRangeU hNotReach)).2.1
    have hRangeW :=
      hFirst w (hComplete.numbered_iff_reachable.mpr hReach)
    apply hNot
    apply hComplete.numbered_iff_reachable.mp
    exact (hFirst.numbered_iff hComplete).mpr
      ⟨hRange.1, hLt.trans hRangeW.2⟩
  · intro hBelow sizes hSizes fuel hFuel
    rcases calculate_subtrees sizes hSizes hBelow hFuel
      with ⟨_, _, result, _, _, hResult, _⟩
    exact ⟨⟨_, hResult⟩,
      leafQueue_of_reachedBelow hBelow hFuel.le⟩

theorem not_calculatesSafely :
    ¬ CalculatesSafely missedVertex := by
  intro hSafe
  rcases (hSafe [0, 1, 1, 1] rfl 5 (by decide)).1 with
    ⟨result, hResult⟩
  have hNone :
      calculateRetainedSizesViaDominatorTree 5
        missedVertex.edges ([0, 1, 1, 1] : jlongs) =
          none := by
    decide +kernel
  rw [hNone] at hResult
  cases hResult

end DominatorTree

end MemoryAgent
