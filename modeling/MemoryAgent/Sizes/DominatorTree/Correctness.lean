import MemoryAgent.Graph.LeafAccumulation
import MemoryAgent.Sizes.DominatorTree.MainLoop

/-
  The dominator tree gives the retained size of every vertex
  of a graph whose vertices the root all reaches.

  Key definitions include:
    * `DominatorTree.DomInvariant`
    * `DominatorTree.vertices`
    * `DominatorTree.domForest`
    * `DominatorTree.dominated`

  Main results:
    * `DominatorTree.correctDom_spec`
    * `DominatorTree.correctionLoop_spec`
    * `DominatorTree.leafLoop_spec`
    * `DominatorTree.up_iff_dominates`
    * `DominatorTree.calculate_spec`
-/

------------------------------------------------------------
-- Correcting Dominators
------------------------------------------------------------

namespace MemoryAgent

namespace DominatorTree

open StdVector Dominance PathCompression

/-
  The vertices with numbers up to `i` have their immediate
  dominators, and the others decide theirs.  What the search
  does not number keeps the value it started with.
-/
structure DomInvariant
    (g : FlowGraph)
    (r : Search)
    (i : Nat)
    (dom : jlong → jlong) : Prop where
  root : dom 0 = -1
  idom :
    ∀ w, 0 < r.num w → r.num w ≤ i →
      IsIdom g.Edge 0 (dom w) w
  resolved : ∀ w, i < r.num w → Resolved g r w (dom w)
  untouched : ∀ w, ¬ r.Numbered w → dom w = 0

section Correction

variable {g : FlowGraph}
variable {r : Search}
variable {i : Nat}
variable {s : Loop}
variable {dom count : jlong → jlong}
variable {d v w : jlong}

/- An immediate dominator is reached earlier. -/
theorem idom_numbered
    (hComplete : r.Complete g)
    (hNumbered : r.Numbered w)
    (hIdom : IsIdom g.Edge 0 d w) :
    r.Numbered d ∧ r.num d < r.num w := by
  have hTree := hComplete.depthFirstTree
  have hAnc :=
    hTree.ancestor_of_dominates hNumbered hIdom.dominates
  exact ⟨hTree.reached_of_ancestor hAnc hNumbered,
    hTree.num_lt hAnc hNumbered hIdom.ne⟩

/- The correction of one vertex. -/
theorem correctDom_spec
    (hComplete : r.Complete g)
    (hLoop : LoopInvariant g r 0 s)
    (hDom : DomInvariant g r i dom)
    (hLt : i + 1 < r.n) :
    ∃ dom',
      correctDom (tabulate g.order r.vertex)
          (tabulate g.order s.semi) (r.nth (i + 1))
          (tabulate g.order dom) =
        some (tabulate g.order dom') ∧
      DomInvariant g r (i + 1) dom' ∧
      ∀ v, v ≠ r.nth (i + 1) → dom' v = dom v := by
  have hTree := hComplete.depthFirstTree
  let w : jlong := r.nth (i + 1)
  have hNum : r.num w = i + 1 := hComplete.num_nth hLt
  have hNumbered : r.Numbered w := ⟨i + 1, hLt, rfl⟩
  have hRoot : w ≠ 0 :=
    hComplete.ne_root_of_num_pos (by omega)
  have hRange := hComplete.inRange hNumbered
  have hOther :
      ∀ v, i + 1 < r.num v ∨ r.num v ≤ i → v ≠ w := by
    intro v hCases hEq
    rw [hEq, hNum] at hCases
    omega
  rcases hDom.resolved w (by omega) with ⟨x, hSemi, hCases⟩
  rcases hLoop.semi_high w (by omega) with
    ⟨x', hSemi', hKey⟩
  have hEqX := isSemi_unique hComplete hSemi hSemi'
  rw [← hEqX] at hKey
  have hNumX : InRange g.order (r.num x : jlong) := by
    have hLtX := hComplete.num_lt hSemi.source
    have hLeN := hComplete.valid.n_le_order
    exact inRange_natCast.mpr (by omega)
  have hReadX :
      read (tabulate g.order r.vertex) (s.semi w) =
        some x := by
    rw [hKey]
    exact (read_tabulate _ hNumX).trans
      (congrArg some (hComplete.nth_num hSemi.source))
  rcases hCases with
    ⟨hEq, hMin⟩ |
      ⟨hBelow, hAnc, t, hSemiD, hLess, hMin⟩
  · refine ⟨dom, ?_, ⟨hDom.root, ?_, ?_, hDom.untouched⟩,
      fun _ _ => rfl⟩
    · change correctDom _ _ w _ = _
      simp [correctDom, read_tabulate _ hRange, hReadX, hEq]
    · intro v hPos hLe
      by_cases hEqV : v = w
      · rw [hEqV, hEq]
        exact hTree.isIdom_semi hNumbered hRoot hSemi hMin
      · have hNe : r.num v ≠ i + 1 := by
          intro hEqNum
          exact hEqV (hTree.inj v w
            (hComplete.numbered_of_num_pos hPos) hNumbered
            (by omega))
        exact hDom.idom v hPos (by omega)
    · intro v hLtV
      exact hDom.resolved v (by omega)
  · have hNumberedD :=
      hTree.reached_of_ancestor hAnc hNumbered
    have hRangeD := hComplete.inRange hNumberedD
    have hNeX : dom w ≠ x := by
      intro hEq
      rw [hEq] at hBelow
      exact absurd hBelow (Nat.lt_irrefl _)
    have hNeW : dom w ≠ w := by
      intro hEq
      rw [hEq] at hSemiD
      have hEqT := isSemi_unique hComplete hSemiD hSemi
      rw [hEqT] at hLess
      exact absurd hLess (Nat.lt_irrefl _)
    have hLtD := hTree.num_lt hAnc hNumbered hNeW
    have hIdomD : IsIdom g.Edge 0 (dom (dom w)) (dom w) :=
      hDom.idom (dom w) (by omega) (by omega)
    refine ⟨Function.update dom w (dom (dom w)), ?_,
      ⟨?_, ?_, ?_, ?_⟩, ?_⟩
    · change correctDom _ _ w _ = _
      simp [correctDom, read_tabulate _ hRange, hReadX,
        hNeX, read_tabulate _ hRangeD,
        write_tabulate _ _ hRange]
    · rw [Function.update_of_ne (Ne.symm hRoot)]
      exact hDom.root
    · intro v hPos hLe
      by_cases hEqV : v = w
      · rw [hEqV, Function.update_self]
        exact hTree.isIdom_of_min hNumbered hRoot hSemi
          hAnc hBelow hSemiD hLess hMin hIdomD
      · have hNe : r.num v ≠ i + 1 := by
          intro hEqNum
          exact hEqV (hTree.inj v w
            (hComplete.numbered_of_num_pos hPos) hNumbered
            (by omega))
        rw [Function.update_of_ne hEqV]
        exact hDom.idom v hPos (by omega)
    · intro v hLtV
      rw [Function.update_of_ne (hOther v (Or.inl hLtV))]
      exact hDom.resolved v (by omega)
    · intro v hNot
      have hNe : v ≠ w := fun hEq => hNot (hEq ▸ hNumbered)
      rw [Function.update_of_ne hNe]
      exact hDom.untouched v hNot
    · intro v hNe
      exact Function.update_of_ne hNe _ _

------------------------------------------------------------
-- Counting Children
------------------------------------------------------------

/- The vertices below `n`. -/
def firstVertices (n : Nat) : Finset jlong :=
  (Finset.range n).image (fun (k : Nat) => (k : jlong))

theorem mem_firstVertices
    {n : Nat} :
    v ∈ firstVertices n ↔ InRange n v := by
  unfold firstVertices
  rw [Finset.mem_image]
  constructor
  · rintro ⟨k, hMem, hEq⟩
    rw [← hEq]
    exact inRange_natCast.mpr (Finset.mem_range.mp hMem)
  · intro hRange
    have hCast : (v.toNat : Int) = v :=
      Int.toNat_of_nonneg hRange.1
    refine ⟨v.toNat, Finset.mem_range.mpr ?_, hCast⟩
    apply inRange_natCast.mp
    rw [hCast]
    exact hRange

theorem card_firstVertices
    (n : Nat) :
    (firstVertices n).card = n := by
  unfold firstVertices
  rw [Finset.card_image_of_injective, Finset.card_range]
  intro j k hEq
  exact Int.ofNat.inj hEq

/- All vertices of a graph. -/
def vertices (g : FlowGraph) : Finset jlong :=
  (Finset.range g.order).image (fun (k : Nat) => (k : jlong))

theorem mem_vertices :
    v ∈ vertices g ↔ InRange g.order v :=
  mem_firstVertices

theorem card_vertices
    (g : FlowGraph) :
    (vertices g).card = g.order :=
  card_firstVertices g.order

/- The children of `d` with numbers up to `i`. -/
def childrenUpTo
    (g : FlowGraph)
    (r : Search)
    (dom : jlong → jlong)
    (i : Nat)
    (d : jlong) : Finset jlong :=
  (vertices g).filter
    (fun w => 0 < r.num w ∧ r.num w ≤ i ∧ dom w = d)

theorem mem_childrenUpTo :
    w ∈ childrenUpTo g r dom i d ↔
      InRange g.order w ∧ 0 < r.num w ∧ r.num w ≤ i ∧
        dom w = d := by
  unfold childrenUpTo
  rw [Finset.mem_filter, mem_vertices]

/- One more vertex has been corrected. -/
theorem childrenUpTo_succ
    (hComplete : r.Complete g)
    (hLt : i + 1 < r.n)
    {dom' : jlong → jlong}
    (hSame :
      ∀ v, v ≠ r.nth (i + 1) → dom' v = dom v) :
    childrenUpTo g r dom' (i + 1) d =
      if dom' (r.nth (i + 1)) = d then
        insert (r.nth (i + 1)) (childrenUpTo g r dom i d)
      else
        childrenUpTo g r dom i d := by
  have hNum := hComplete.num_nth hLt
  have hNumbered : r.Numbered (r.nth (i + 1)) :=
    ⟨i + 1, hLt, rfl⟩
  have hOld :
      ∀ v, v ≠ r.nth (i + 1) →
        (v ∈ childrenUpTo g r dom' (i + 1) d ↔
          v ∈ childrenUpTo g r dom i d) := by
    intro v hNe
    rw [mem_childrenUpTo, mem_childrenUpTo, hSame v hNe]
    apply and_congr_right
    intro _
    apply and_congr_right
    intro hPos
    apply and_congr_left
    intro _
    constructor
    · intro hLe
      by_contra hNot
      apply hNe
      rw [← hComplete.nth_num
        (hComplete.numbered_of_num_pos hPos)]
      congr 1
      omega
    · intro hLe
      omega
  have hNew :
      r.nth (i + 1) ∉ childrenUpTo g r dom i d := by
    rw [mem_childrenUpTo, hNum]
    omega
  have hSelf :
      r.nth (i + 1) ∈ childrenUpTo g r dom' (i + 1) d ↔
        dom' (r.nth (i + 1)) = d := by
    rw [mem_childrenUpTo, hNum]
    have hRange := hComplete.inRange hNumbered
    constructor
    · intro hAll
      exact hAll.2.2.2
    · intro hEq
      exact ⟨hRange, by omega, by omega, hEq⟩
  ext v
  by_cases hEq : v = r.nth (i + 1)
  · rw [hEq, hSelf]
    split
    · simp [*]
    · simp [*]
  · rw [hOld v hEq]
    split
    · simp [hEq]
    · rfl

theorem card_childrenUpTo_succ
    (hComplete : r.Complete g)
    (hLt : i + 1 < r.n)
    {dom' : jlong → jlong}
    (hSame :
      ∀ v, v ≠ r.nth (i + 1) → dom' v = dom v)
    (hCount :
      ∀ d, InRange g.order d →
        count d = (childrenUpTo g r dom i d).card)
    (hRange : InRange g.order d) :
    Function.update count (dom' (r.nth (i + 1)))
        (count (dom' (r.nth (i + 1))) + 1) d =
      (childrenUpTo g r dom' (i + 1) d).card := by
  have hNum := hComplete.num_nth hLt
  rw [childrenUpTo_succ hComplete hLt hSame]
  by_cases hEq : dom' (r.nth (i + 1)) = d
  · have hNew :
        r.nth (i + 1) ∉ childrenUpTo g r dom i d := by
      rw [mem_childrenUpTo, hNum]
      omega
    rw [if_pos hEq, hEq, Function.update_self,
      Finset.card_insert_of_notMem hNew, hCount d hRange]
    rfl
  · rw [if_neg hEq, Function.update_of_ne (Ne.symm hEq)]
    exact hCount d hRange

------------------------------------------------------------
-- The Correction Loop
------------------------------------------------------------

theorem countChild_spec
    {m : Nat}
    (hRange : InRange m d) :
    countChild d (tabulate m count) =
      some (tabulate m
        (Function.update count d (count d + 1))) := by
  have hNonneg : 0 ≤ d := hRange.1
  simp [countChild, hNonneg, read_tabulate _ hRange,
    write_tabulate _ _ hRange]

/- The counters of the first vertices cover the reached. -/
def ReachedFirst
    (r : Search) : Prop :=
  ∀ v, r.Numbered v → InRange r.n v

/- Every immediate dominator has a counter of children. -/
def CountedIdoms
    (g : FlowGraph)
    (r : Search) : Prop :=
  ∀ d w, 0 < r.num w → IsIdom g.Edge 0 d w →
    InRange r.n d

theorem ReachedFirst.countedIdoms
    (hFirst : ReachedFirst r)
    (hComplete : r.Complete g) :
    CountedIdoms g r := by
  intro d w hPos hIdom
  have hNumbered := hComplete.numbered_of_num_pos hPos
  exact hFirst d
    (idom_numbered hComplete hNumbered hIdom).1

/-
  The state of the correction loop after the numbers up to
  `i`.
-/
structure CorrectionInvariant
    (g : FlowGraph)
    (r : Search)
    (i : Nat)
    (dom count : jlong → jlong) : Prop where
  doms : DomInvariant g r i dom
  counts :
    ∀ d, InRange g.order d →
      count d = (childrenUpTo g r dom i d).card

theorem correctionStep_spec
    (hComplete : r.Complete g)
    (hCounted : CountedIdoms g r)
    (hLoop : LoopInvariant g r 0 s)
    (hInvariant : CorrectionInvariant g r i dom count)
    (hLt : i + 1 < r.n) :
    ∃ dom' count',
      correctionStep (tabulate g.order r.vertex)
          (tabulate g.order s.semi)
          ⟨tabulate g.order dom, tabulate r.n count⟩
          ((i : jlong) + 1) =
        some ⟨tabulate g.order dom',
          tabulate r.n count'⟩ ∧
      CorrectionInvariant g r (i + 1) dom' count' := by
  have hNum := hComplete.num_nth hLt
  have hNumbered : r.Numbered (r.nth (i + 1)) :=
    ⟨i + 1, hLt, rfl⟩
  have hRange := hComplete.inRange hNumbered
  have hRangeI : InRange g.order ((i : jlong) + 1) := by
    have hLeN := hComplete.valid.n_le_order
    constructor
    · omega
    · omega
  rcases correctDom_spec hComplete hLoop hInvariant.doms hLt
    with ⟨dom', hCorrect, hDom, hSame⟩
  have hIdom :=
    hDom.idom (r.nth (i + 1)) (by omega) (by omega)
  have hRangeD := hCounted _ _ (by omega) hIdom
  refine ⟨dom', _, ?_, hDom, fun d hRangeX =>
    card_childrenUpTo_succ hComplete hLt hSame
      hInvariant.counts hRangeX⟩
  have hReadW :
      read (tabulate g.order r.vertex) ((i : jlong) + 1) =
        some (r.nth (i + 1)) :=
    read_tabulate _ hRangeI
  simp [correctionStep, hReadW, hCorrect,
    read_tabulate _ hRange, countChild_spec hRangeD]

/- The iterations of the correction loop up to `i`. -/
theorem correctionLoop_prefix
    (hComplete : r.Complete g)
    (hCounted : CountedIdoms g r)
    (hLoop : LoopInvariant g r 0 s)
    (hInit : CorrectionInvariant g r 0 dom count)
    (i : Nat)
    (hLt : i < r.n) :
    ∃ dom' count',
      ((List.range i).map
          (fun (k : Nat) => (k : jlong) + 1)).foldlM
          (correctionStep (tabulate g.order r.vertex)
            (tabulate g.order s.semi))
          ⟨tabulate g.order dom, tabulate r.n count⟩ =
        some ⟨tabulate g.order dom',
          tabulate r.n count'⟩ ∧
      CorrectionInvariant g r i dom' count' := by
  induction i with
  | zero => exact ⟨dom, count, rfl, hInit⟩
  | succ i ih =>
      rcases ih (by omega) with
        ⟨dom', count', hFold, hInvariant⟩
      rcases correctionStep_spec hComplete hCounted hLoop
          hInvariant hLt with
        ⟨dom'', count'', hStep, hInvariant'⟩
      refine ⟨dom'', count'', ?_, hInvariant'⟩
      rw [List.range_succ, List.map_append,
        List.foldlM_append, hFold]
      simp [hStep]

theorem correctionLoop_spec
    (hComplete : r.Complete g)
    (hCounted : CountedIdoms g r)
    (hLoop : LoopInvariant g r 0 s)
    (hInit : CorrectionInvariant g r 0 dom count) :
    ∃ dom' count',
      correctionLoop (tabulate g.order r.vertex)
          (tabulate g.order s.semi) r.n
          ⟨tabulate g.order dom, tabulate r.n count⟩ =
        some ⟨tabulate g.order dom',
          tabulate r.n count'⟩ ∧
      CorrectionInvariant g r (r.n - 1) dom' count' := by
  have hCast : ((r.n : jlong) - 1).toNat = r.n - 1 := by
    omega
  have hPos := hComplete.pos
  unfold correctionLoop fromOne
  rw [hCast]
  exact correctionLoop_prefix hComplete hCounted hLoop hInit
    (r.n - 1) (by omega)

/- The state before the correction loop. -/
theorem correctionInvariant_init
    (hComplete : r.Complete g)
    (hLoop : LoopInvariant g r 0 s) :
    CorrectionInvariant g r 0
      (Function.update s.dom 0 (-1)) (fun _ => 0) := by
  refine ⟨⟨Function.update_self _ _ _, ?_, ?_, ?_⟩, ?_⟩
  · intro w hPos hLe
    omega
  · intro w hPos
    have hRoot := hComplete.ne_root_of_num_pos hPos
    rw [Function.update_of_ne hRoot]
    exact hLoop.resolved_of_ne_root hComplete
      (hComplete.numbered_of_num_pos hPos) hRoot
  · intro w hNot
    have hRoot : w ≠ 0 := by
      intro hEq
      rw [hEq] at hNot
      exact hNot (hComplete.numbered_iff_reachable.mpr
        FlowGraph.Reachable.root)
    rw [Function.update_of_ne hRoot]
    exact hLoop.untouched w hNot
  · intro d _
    have hEmpty :
        childrenUpTo g r (Function.update s.dom 0 (-1)) 0 d =
          ∅ := by
      apply Finset.eq_empty_of_forall_notMem
      intro w hMem
      rw [mem_childrenUpTo] at hMem
      omega
    rw [hEmpty]
    rfl

/- The numbers below that of a reached vertex. -/
def ReachedBelow (g : FlowGraph) : Prop :=
  ∀ v w, InRange g.order v → g.Reachable w → v < w →
    g.Reachable v

/- The vertices that the search numbered. -/
def numberedVertices (r : Search) : Finset jlong :=
  (Finset.range r.n).image r.nth

theorem mem_numberedVertices :
    v ∈ numberedVertices r ↔ r.Numbered v := by
  unfold numberedVertices
  simp only [Finset.mem_image, Finset.mem_range]
  rfl

theorem card_numberedVertices
    (hComplete : r.Complete g) :
    (numberedVertices r).card = r.n := by
  unfold numberedVertices
  rw [Finset.card_image_of_injOn, Finset.card_range]
  intro j hJ k hK hEq
  exact hComplete.valid.nth_inj (Finset.mem_range.mp hJ)
    (Finset.mem_range.mp hK) hEq

theorem ReachedFirst.numbered_iff
    (hFirst : ReachedFirst r)
    (hComplete : r.Complete g) :
    r.Numbered v ↔ InRange r.n v := by
  have hSame : numberedVertices r = firstVertices r.n := by
    apply Finset.eq_of_subset_of_card_le
    · intro u hMem
      exact mem_firstVertices.mpr
        (hFirst u (mem_numberedVertices.mp hMem))
    · rw [card_firstVertices,
        card_numberedVertices hComplete]
  rw [← mem_numberedVertices, hSame, mem_firstVertices]

theorem reachedFirst_of_numbered
    (hComplete : r.Complete g)
    (hAll : ∀ v, InRange r.n v → r.Numbered v) :
    ReachedFirst r := by
  have hSame : firstVertices r.n = numberedVertices r := by
    apply Finset.eq_of_subset_of_card_le
    · intro u hMem
      exact mem_numberedVertices.mpr
        (hAll u (mem_firstVertices.mp hMem))
    · rw [card_firstVertices,
        card_numberedVertices hComplete]
  intro v hNumbered
  rw [← mem_firstVertices, hSame, mem_numberedVertices]
  exact hNumbered

/- Then the reached vertices are the first ones. -/
theorem ReachedBelow.reachedFirst
    (hBelow : ReachedBelow g)
    (hComplete : r.Complete g) :
    ReachedFirst r := by
  intro v hNumbered
  have hRange := hComplete.inRange hNumbered
  have hReach :=
    hComplete.numbered_iff_reachable.mp hNumbered
  have hNonneg := hRange.1
  have hSubset :
      firstVertices (v.toNat + 1) ⊆ numberedVertices r := by
    intro u hMem
    have hRangeU := mem_firstVertices.mp hMem
    have hCast : ((v.toNat + 1 : Nat) : Int) = v + 1 := by
      rw [Int.natCast_add, Int.toNat_of_nonneg hNonneg]
      rfl
    have hLe : u ≤ v :=
      Int.le_of_lt_add_one (hCast ▸ hRangeU.2)
    rw [mem_numberedVertices,
      hComplete.numbered_iff_reachable]
    rcases lt_or_eq_of_le hLe with hLt | hEq
    · exact hBelow u v
        ⟨hRangeU.1, hLt.trans hRange.2⟩ hReach hLt
    · rw [hEq]
      exact hReach
  have hCard := Finset.card_le_card hSubset
  rw [card_firstVertices, card_numberedVertices hComplete]
    at hCard
  refine ⟨hNonneg, ?_⟩
  omega

end Correction

------------------------------------------------------------
-- The Forest of Dominators
------------------------------------------------------------

section Accumulate

variable {g : FlowGraph}
variable {r : Search}
variable {dom count sizes : jlong → jlong}
variable {d v w : jlong}

/- Every reached vertex has its immediate dominator. -/
def HasIdoms
    (g : FlowGraph)
    (r : Search)
    (dom : jlong → jlong) : Prop :=
  dom 0 = -1 ∧
    ∀ w, 0 < r.num w → IsIdom g.Edge 0 (dom w) w

theorem DomInvariant.hasIdoms
    (hComplete : r.Complete g)
    (hDom : DomInvariant g r (r.n - 1) dom) :
    HasIdoms g r dom := by
  refine ⟨hDom.root, ?_⟩
  intro w hPos
  have hLt :=
    hComplete.num_lt (hComplete.numbered_of_num_pos hPos)
  exact hDom.idom w hPos (by omega)

/- The vertices under their immediate dominators. -/
def domForest
    (hComplete : r.Complete g)
    (hIdoms : HasIdoms g r dom) :
    LeafAccumulation.Forest jlong where
  nodes := vertices g
  parent := fun w =>
    if 0 < r.num w then some (dom w) else none
  rank := r.num
  ranked := by
    intro v p hParent
    dsimp only at hParent
    split at hParent
    · cases hParent
      rename_i hPos
      exact (idom_numbered hComplete
        (hComplete.numbered_of_num_pos hPos)
        (hIdoms.2 v hPos)).2
    · cases hParent
  closed := by
    intro v p _ hParent
    split at hParent
    · cases hParent
      rename_i hPos
      exact mem_vertices.mpr
        (hComplete.inRange
          (idom_numbered hComplete
            (hComplete.numbered_of_num_pos hPos)
            (hIdoms.2 v hPos)).1)
    · cases hParent

theorem dominates_root_iff :
    Dominates g.Edge 0 d 0 ↔ d = 0 := by
  constructor
  · intro hDom
    by_contra hNe
    exact hDom (Avoids.root (Ne.symm hNe))
  · intro hEq
    rw [hEq]
    exact Dominates.refl 0

/- The ancestors in this forest are the dominators. -/
theorem up_iff_dominates
    (hComplete : r.Complete g)
    (hIdoms : HasIdoms g r dom)
    (hNumbered : r.Numbered w) :
    Up (domForest hComplete hIdoms).parent w d ↔
      Dominates g.Edge 0 d w := by
  generalize hNum : r.num w = n
  induction n using Nat.strongRecOn generalizing w with
  | ind n ih =>
      by_cases hRoot : w = 0
      · subst hRoot
        have hNone :
            (domForest hComplete hIdoms).parent 0 = none := by
          simp [domForest, hComplete.num_root]
        rw [dominates_root_iff]
        constructor
        · intro hUp
          exact (hUp.eq_of_root hNone).symm
        · intro hEq
          rw [hEq]
          exact Up.refl 0
      · have hPos := hComplete.num_pos hNumbered hRoot
        have hIdom := hIdoms.2 w hPos
        have hLower :=
          idom_numbered hComplete hNumbered hIdom
        have hParent :
            (domForest hComplete hIdoms).parent w =
              some (dom w) := by
          simp [domForest, hPos]
        have hRest := ih (r.num (dom w)) (by omega)
          hLower.1 rfl
        rw [hIdom.dominates_iff, ← hRest]
        constructor
        · intro hUp
          by_cases hEq : d = w
          · exact Or.inl hEq
          · rcases hUp.parent_of_ne (Ne.symm hEq) with
              ⟨p, hParent', hUpP⟩
            rw [hParent] at hParent'
            cases hParent'
            exact Or.inr hUpP
        · intro hCases
          rcases hCases with hEq | hUp
          · rw [hEq]
            exact Up.refl w
          · exact (Up.single hParent).trans hUp

------------------------------------------------------------
-- The Leaf Queue
------------------------------------------------------------

theorem initialLeaves_eq
    {m : Nat}
    (n : Nat)
    (hLe : n ≤ m) :
    initialLeaves n (tabulate m count) =
      some ((fromOne n).filter (fun i => count i = 0)) := by
  have hPrefix :
      ∀ k, k < m →
        ((List.range k).map
            (fun (j : Nat) => (j : jlong) + 1)).foldlM
            (fun leaves i => do
              let c ← read (tabulate m count) i
              some (if c = 0 then leaves ++ [i] else leaves))
            [] =
          some (((List.range k).map
            (fun (j : Nat) => (j : jlong) + 1)).filter
              (fun i => count i = 0)) := by
    intro k hLt
    induction k with
    | zero => rfl
    | succ k ih =>
        have hRange : InRange m ((k : jlong) + 1) := by
          constructor
          · omega
          · omega
        rw [List.range_succ, List.map_append,
          List.foldlM_append, ih (by omega)]
        by_cases hZero : count ((k : jlong) + 1) = 0
        · simp [read_tabulate _ hRange, hZero]
        · simp [read_tabulate _ hRange, hZero]
  by_cases hEmpty : n = 0
  · subst hEmpty
    rfl
  · have hCast : ((n : jlong) - 1).toNat = n - 1 := by
      omega
    unfold initialLeaves fromOne
    rw [hCast]
    exact hPrefix (n - 1) (by omega)

theorem mem_fromOne
    {n : Nat}
    {v : jlong} :
    v ∈ fromOne n ↔ v ≠ 0 ∧ InRange n v := by
  unfold fromOne
  rw [List.mem_map]
  constructor
  · rintro ⟨k, hMem, hEq⟩
    have hLt := List.mem_range.mp hMem
    rw [← hEq]
    have hNe : (k : Int) + 1 ≠ 0 := by omega
    refine ⟨hNe, ?_, ?_⟩
    · omega
    · omega
  · rintro ⟨hNe, hNonneg, hLt⟩
    have hPos : (0 : Int) < v :=
      lt_of_le_of_ne hNonneg (Ne.symm hNe)
    refine ⟨(v - 1).toNat, ?_, ?_⟩
    · rw [List.mem_range]
      omega
    · have hCast : ((v - 1).toNat : Int) = v - 1 :=
        Int.toNat_of_nonneg (by omega)
      change ((v - 1).toNat : Int) + 1 = v
      omega

theorem nodup_fromOne
    (n : jlong) :
    (fromOne n).Nodup := by
  unfold fromOne
  apply List.Nodup.map
  · intro j k hEq
    have hInt : (j : Int) + 1 = (k : Int) + 1 := hEq
    omega
  · exact List.nodup_range

open LeafAccumulation in
/- One leaf of the queue. -/
theorem leafStep_spec
    (hComplete : r.Complete g)
    (hIdoms : HasIdoms g r dom)
    (hFirst : ReachedFirst r)
    {done : Finset jlong}
    {queue : jlongs}
    {total : jlong → jlong}
    (hReached : ∀ x ∈ v :: queue, r.Numbered x)
    (hStripped :
      Stripped (domForest hComplete hIdoms) sizes
        (fun _ => True) done (v :: queue) count total) :
    ∃ queue' count' total',
      leafStep (tabulate g.order dom) v
          ⟨queue, tabulate r.n count,
            tabulate g.order total⟩ =
        some ⟨queue', tabulate r.n count',
          tabulate g.order total'⟩ ∧
      (∀ x ∈ queue', r.Numbered x) ∧
      Stripped (domForest hComplete hIdoms) sizes
        (fun _ => True) (insert v done) queue' count'
        total' := by
  have hNumbered := hReached v List.mem_cons_self
  have hRange := hComplete.inRange hNumbered
  have hQueue : ∀ x ∈ queue, r.Numbered x :=
    fun x hMem => hReached x (List.mem_cons_of_mem v hMem)
  by_cases hPos : 0 < r.num v
  · have hParent :
        (domForest hComplete hIdoms).parent v =
          some (dom v) := if_pos hPos
    have hNumberedD :=
      (idom_numbered hComplete hNumbered
        (hIdoms.2 v hPos)).1
    have hRangeD := hComplete.inRange hNumberedD
    have hRangeC := hFirst _ hNumberedD
    have hNonneg : 0 ≤ dom v := hRangeD.1
    refine ⟨_, _, _, ?_, ?_,
      hStripped.step hParent trivial⟩
    · simp [leafStep, read_tabulate _ hRange,
        read_tabulate _ hRangeD, write_tabulate _ _ hRangeD,
        read_tabulate _ hRangeC, write_tabulate _ _ hRangeC,
        hNonneg]
    · intro x hMem
      split at hMem
      · rcases List.mem_append.mp hMem with hOld | hNew
        · exact hQueue x hOld
        · rw [List.mem_singleton.mp hNew]
          exact hNumberedD
      · exact hQueue x hMem
  · have hRoot : v = 0 := by
      by_contra hNe
      exact hPos (hComplete.num_pos hNumbered hNe)
    have hParent :
        (domForest hComplete hIdoms).parent v = none :=
      if_neg hPos
    have hEnd : dom v = -1 := by
      rw [hRoot]
      exact hIdoms.1
    refine ⟨queue, count, total, ?_, hQueue,
      hStripped.step_root hParent⟩
    simp [leafStep, read_tabulate _ hRange, hEnd]

open LeafAccumulation in
/-
  The loop empties the queue: each leaf it takes is one more
  vertex done.
-/
theorem leafLoop_spec
    (hComplete : r.Complete g)
    (hIdoms : HasIdoms g r dom)
    (hFirst : ReachedFirst r)
    (fuel : Nat)
    {done : Finset jlong}
    {queue : jlongs}
    {total : jlong → jlong}
    (hReached : ∀ x ∈ queue, r.Numbered x)
    (hStripped :
      Stripped (domForest hComplete hIdoms) sizes
        (fun _ => True) done queue count total)
    (hFuel : g.order < fuel + done.card) :
    ∃ s, leafLoop (tabulate g.order dom) fuel
          ⟨queue, tabulate r.n count,
            tabulate g.order total⟩ = some s ∧
      ∃ result, s.retainedSizes = tabulate g.order result ∧
        ∀ d, InRange g.order d →
          result d =
            ∑ w ∈ subtree (domForest hComplete hIdoms) d,
              sizes w := by
  have hBound : done.card ≤ g.order := by
    rw [← card_vertices g]
    exact Finset.card_le_card hStripped.done_mem
  induction fuel generalizing done queue count total with
  | zero => omega
  | succ fuel ih =>
      cases queue with
      | nil =>
          refine ⟨_, rfl, total, rfl, ?_⟩
          intro d hRange
          exact hStripped.total_of_empty
            (mem_vertices.mpr hRange) (fun _ _ _ => trivial)
      | cons v queue =>
          rcases leafStep_spec hComplete hIdoms hFirst
              hReached hStripped with
            ⟨queue', count', total', hStep, hReached',
              hStripped'⟩
          have hNew :=
            (hStripped.queue_mem v List.mem_cons_self).2
          have hCard :
              (insert v done).card = done.card + 1 :=
            Finset.card_insert_of_notMem hNew
          have hBound' : (insert v done).card ≤ g.order := by
            rw [← card_vertices g]
            exact Finset.card_le_card hStripped'.done_mem
          rcases ih hReached' hStripped' (by omega) hBound' with
            ⟨s, hLoop, hResult⟩
          refine ⟨s, ?_, hResult⟩
          unfold leafLoop
          dsimp only
          rw [hStep]
          exact hLoop

end Accumulate

------------------------------------------------------------
-- Retained Sizes
------------------------------------------------------------

/- The vertices that every path reaches through `v`. -/
open scoped Classical in
noncomputable def dominated
    (g : FlowGraph)
    (v : jlong) : Finset jlong :=
  (vertices g).filter (fun w => Dominates g.Edge 0 v w)

/- The size that a vector has for a vertex. -/
def sizeAt
    (sizes : jlongs)
    (v : jlong) : jlong :=
  (read sizes v).getD 0

theorem mem_dominated
    {g : FlowGraph}
    {v w : jlong} :
    w ∈ dominated g v ↔
      InRange g.order w ∧ Dominates g.Edge 0 v w := by
  classical
  unfold dominated
  rw [Finset.mem_filter, mem_vertices]

section Result

variable {g : FlowGraph}
variable {fuel : Nat}

theorem copySizes_eq
    (sizes : jlongs) :
    copySizes sizes.length sizes =
      some (tabulate sizes.length (sizeAt sizes)) := by
  apply mapM_eq_some_map
  intro k hMem
  have hRange : InRange sizes.length (k : jlong) :=
    inRange_natCast.mpr (List.mem_range.mp hMem)
  rcases exists_read hRange with ⟨x, hRead⟩
  simp [hRead, sizeAt]

/-
  The search and the main loop finish on every graph, and
  the correction loop begins with what they computed.
-/
theorem dominators_eq
    (hFuel : g.order ≤ fuel) :
    ∃ (r : Search) (s : Loop),
      r.Complete g ∧ LoopInvariant g r 0 s ∧
      dfs g.edges fuel 0 (initialNumbering g.order) =
        some (r.numbering g.order) ∧
      mainLoop fuel (r.numbering g.order)
          ((r.n : jlong) - 1).toNat
          (initialDominators g.order
            (r.numbering g.order).semi) =
        some (s.dominators g.order) ∧
      write (s.dominators g.order).dom 0 (-1) =
        some (tabulate g.order
          (Function.update s.dom 0 (-1))) ∧
      dominators fuel g.edges =
        (correctionLoop (tabulate g.order r.vertex)
          (tabulate g.order s.semi) r.n
          ⟨tabulate g.order (Function.update s.dom 0 (-1)),
            zeros r.n⟩).map
          (fun c => (r.numbering g.order, c)) := by
  rcases exists_dfs g fuel hFuel with ⟨r, hDfs, hComplete⟩
  have hPos := hComplete.pos
  rcases mainLoop_spec hComplete hFuel (r.n - 1)
      (Loop.initial r) (Loop.initial_invariant hComplete)
      (by omega) with
    ⟨s, hMain, hLoop⟩
  have hOrder : g.edges.length = g.order := rfl
  have hN : (r.numbering g.order).n = r.n := rfl
  have hCast : ((r.n : jlong) - 1).toNat = r.n - 1 := by
    omega
  have hNat : (r.n : jlong).toNat = r.n := by
    omega
  have hSemi :
      initialDominators g.order (r.numbering g.order).semi =
        (Loop.initial r).dominators g.order :=
    (Loop.initial_dominators r g.order).symm
  have hWrite :
      write (s.dominators g.order).dom 0 (-1) =
        some (tabulate g.order
          (Function.update s.dom 0 (-1))) :=
    write_tabulate _ _ g.root_inRange
  refine ⟨r, s, hComplete, hLoop, hDfs, ?_, hWrite, ?_⟩
  · rw [hCast, hSemi]
    exact hMain
  · simp only [dominators, hOrder, hDfs,
      Option.bind_eq_bind, Option.bind_some, hN, hCast,
      hSemi, hMain, hWrite, hNat]
    rw [Option.map_eq_bind]
    rfl

/- With counters for all of them it finds the dominators. -/
theorem dominators_of_counted
    (hCounted :
      ∀ r : Search, r.Complete g → CountedIdoms g r)
    (hFuel : g.order ≤ fuel) :
    ∃ (r : Search) (dom count : jlong → jlong),
      dominators fuel g.edges =
        some (r.numbering g.order,
          ⟨tabulate g.order dom, tabulate r.n count⟩) ∧
      r.Complete g ∧
      CorrectionInvariant g r (r.n - 1) dom count := by
  rcases dominators_eq hFuel with
    ⟨r, s, hComplete, hLoop, _, _, _, hDominators⟩
  rcases correctionLoop_spec hComplete
      (hCounted r hComplete) hLoop
      (correctionInvariant_init hComplete hLoop) with
    ⟨dom, count, hCorrect, hInvariant⟩
  refine ⟨r, dom, count, ?_, hComplete, hInvariant⟩
  have hZeros : zeros r.n = tabulate r.n (fun _ => 0) :=
    tabulate_const r.n 0
  rw [hDominators, hZeros, hCorrect]
  rfl

/-
  The computation up to the correction loop yields the
  immediate dominators.
-/
theorem dominators_spec
    (hBelow : ReachedBelow g)
    (hFuel : g.order ≤ fuel) :
    ∃ (r : Search) (dom count : jlong → jlong),
      dominators fuel g.edges =
        some (r.numbering g.order,
          ⟨tabulate g.order dom, tabulate r.n count⟩) ∧
      r.Complete g ∧ ReachedFirst r ∧
      CorrectionInvariant g r (r.n - 1) dom count := by
  have hCounted :
      ∀ r : Search, r.Complete g → CountedIdoms g r :=
    fun r hComplete =>
      (hBelow.reachedFirst hComplete).countedIdoms hComplete
  rcases dominators_of_counted hCounted hFuel with
    ⟨r, dom, count, hDominators, hComplete, hInvariant⟩
  exact ⟨r, dom, count, hDominators, hComplete,
    hBelow.reachedFirst hComplete, hInvariant⟩

open LeafAccumulation in
/-
  With enough fuel the computation returns, for every
  vertex, the size of its subtree of the dominator tree.
-/
theorem calculate_subtrees
    (sizes : jlongs)
    (hSizes : sizes.length = g.order)
    (hBelow : ReachedBelow g)
    (hFuel : g.order < fuel) :
    ∃ (r : Search) (dom result : jlong → jlong)
        (hComplete : r.Complete g)
        (hIdoms : HasIdoms g r dom),
      calculateRetainedSizesViaDominatorTree fuel g.edges
          sizes =
        some (tabulate g.order result) ∧
      ∀ v, InRange g.order v →
        result v =
          ∑ w ∈ subtree (domForest hComplete hIdoms) v,
            sizeAt sizes w := by
  rcases dominators_spec hBelow hFuel.le with
    ⟨r, dom, count, hDominators, hComplete, hFirst,
      hInvariant⟩
  have hIdoms := hInvariant.doms.hasIdoms hComplete
  let leaves : jlongs :=
    (fromOne r.n).filter (fun i => count i = 0)
  have hCount :
      ∀ d ∈ vertices g,
        count d =
          (waitingChildren (domForest hComplete hIdoms) ∅
            d).card := by
    intro d hMem
    have hRange := mem_vertices.mp hMem
    have hSame :
        waitingChildren (domForest hComplete hIdoms) ∅ d =
          childrenUpTo g r dom (r.n - 1) d := by
      ext w
      have hParent :
          (domForest hComplete hIdoms).parent w = some d ↔
            0 < r.num w ∧ dom w = d := by
        change (if 0 < r.num w then some (dom w) else none) =
          some d ↔ _
        split
        · simp [*]
        · simp [*]
      rw [mem_waitingChildren, mem_childrenUpTo, hParent]
      change w ∈ vertices g ∧ _ ↔ _
      rw [mem_vertices]
      constructor
      · rintro ⟨hRangeW, ⟨hPos, hEq⟩, _⟩
        have hLt :=
          hComplete.num_lt
            (hComplete.numbered_of_num_pos hPos)
        exact ⟨hRangeW, hPos, by omega, hEq⟩
      · rintro ⟨hRangeW, hPos, _, hEq⟩
        exact ⟨hRangeW, ⟨hPos, hEq⟩, Finset.notMem_empty w⟩
    rw [hSame]
    exact hInvariant.counts d hRange
  have hMem :
      ∀ v, v ∈ leaves ↔
        v ≠ 0 ∧ r.Numbered v ∧ count v = 0 := by
    intro v
    rw [List.mem_filter, mem_fromOne, decide_eq_true_iff,
      ← hFirst.numbered_iff hComplete, and_assoc]
  have hLeaves :
      ∀ v, v ∈ leaves ↔
        v ∈ vertices g ∧
          (domForest hComplete hIdoms).parent v ≠ none ∧
            count v = 0 := by
    intro v
    have hParent :
        (domForest hComplete hIdoms).parent v ≠ none ↔
          0 < r.num v := by
      change (if 0 < r.num v then some (dom v) else none) ≠
        none ↔ _
      split
      · simp [*]
      · simp [*]
    rw [hMem, mem_vertices, hParent]
    constructor
    · rintro ⟨hNe, hNumbered, hZero⟩
      exact ⟨hComplete.inRange hNumbered,
        hComplete.num_pos hNumbered hNe, hZero⟩
    · rintro ⟨hRange, hPos, hZero⟩
      exact ⟨hComplete.ne_root_of_num_pos hPos,
        hComplete.numbered_of_num_pos hPos, hZero⟩
  have hInit :
      Stripped (domForest hComplete hIdoms) (sizeAt sizes)
        (fun _ => True) ∅ leaves count (sizeAt sizes) := by
    apply Stripped.init
      (List.Nodup.filter _ (nodup_fromOne _)) hCount
    · intro v hMemV
      rcases (hLeaves v).mp hMemV with ⟨hNode, _, hZero⟩
      exact ⟨hNode, trivial, hZero⟩
    · intro v hNode _ hInner hZero
      exact (hLeaves v).mpr ⟨hNode, hInner, hZero⟩
  rcases leafLoop_spec hComplete hIdoms hFirst fuel
      (fun v hMemV => ((hMem v).mp hMemV).2.1) hInit
      (by simpa using hFuel) with
    ⟨s, hLoop, result, hResult, hSum⟩
  refine ⟨r, dom, result, hComplete, hIdoms, ?_, hSum⟩
  have hCopy := copySizes_eq sizes
  rw [hSizes] at hCopy
  have hOrder : g.edges.length = g.order := rfl
  have hN : (r.numbering g.order).n = r.n := rfl
  have hInitial :
      initialLeaves r.n (tabulate r.n count) = some leaves :=
    initialLeaves_eq r.n le_rfl
  simp only [calculateRetainedSizesViaDominatorTree,
    hOrder, hCopy, hDominators, Option.bind_eq_bind,
    Option.bind_some, hN, hInitial]
  change (leafLoop (tabulate g.order dom) fuel
    ⟨leaves, _, _⟩).bind _ = _
  rw [hLoop, Option.bind_some, hResult]

open LeafAccumulation in
/-
  If every vertex is reached, this is the size of what the
  vertex dominates.
-/
theorem calculate_spec
    (sizes : jlongs)
    (hSizes : sizes.length = g.order)
    (hReach : ∀ v, InRange g.order v → g.Reachable v)
    (hFuel : g.order < fuel) :
    ∃ result,
      calculateRetainedSizesViaDominatorTree fuel g.edges
          sizes =
        some (tabulate g.order result) ∧
      ∀ v, InRange g.order v →
        result v = ∑ w ∈ dominated g v, sizeAt sizes w := by
  have hBelow : ReachedBelow g :=
    fun v _ hRange _ _ => hReach v hRange
  rcases calculate_subtrees sizes hSizes hBelow hFuel with
    ⟨r, dom, result, hComplete, hIdoms, hResult, hSum⟩
  refine ⟨result, hResult, ?_⟩
  intro v hRange
  rw [hSum v hRange]
  apply Finset.sum_congr ?_ (fun _ _ => rfl)
  ext w
  rw [mem_subtree, mem_dominated]
  change w ∈ vertices g ∧ _ ↔ _
  rw [mem_vertices]
  apply and_congr_right
  intro hRangeW
  exact up_iff_dominates hComplete hIdoms
    (hComplete.numbered_iff_reachable.mpr
      (hReach w hRangeW))

end Result

end DominatorTree

end MemoryAgent
