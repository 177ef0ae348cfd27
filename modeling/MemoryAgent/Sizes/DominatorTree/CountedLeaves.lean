import MemoryAgent.Sizes.DominatorTree.AnyGraph

/-
  The sums on a graph that may have vertices the root does
  not reach.  If all immediate dominators have counters, the
  computation returns.  A reached vertex without counter
  never enters the queue: what it holds is not added to its
  dominator, nor what that one holds to the next.

  Key definitions include:
    * `DominatorTree.belowRoot`
    * `DominatorTree.LeafInvariant`
    * `DominatorTree.reachedDominated`

  Main results:
    * `DominatorTree.LeafInvariant.step`
    * `DominatorTree.exists_leafLoop`
    * `DominatorTree.idomsBelowCount_iff_dominates`
    * `DominatorTree.calculate_isSome_iff`
    * `DominatorTree.exists_calculate_of_counted`
-/

------------------------------------------------------------
-- The Forest below the Root
------------------------------------------------------------

namespace MemoryAgent

namespace DominatorTree

open StdVector Dominance PathCompression LeafAccumulation

variable {g : FlowGraph}
variable {r : Search}
variable {dom count total sizes : jlong → jlong}
variable {fuel : Nat}
variable {d v w : jlong}

/-
  The forest of dominators without its root.  The counter
  and the total of the root are of no use: unreached leaves
  are taken off the former and added to the latter as well.
-/
def belowRoot
    (hComplete : r.Complete g)
    (hIdoms : HasIdoms g r dom) :
    LeafAccumulation.Forest jlong where
  nodes := (vertices g).erase 0
  parent := fun w =>
    if 0 < r.num w ∧ dom w ≠ 0 then some (dom w) else none
  rank := r.num
  ranked := by
    intro v p hParent
    dsimp only at hParent
    split at hParent
    · rename_i hBoth
      cases hParent
      exact (idom_numbered hComplete
        (hComplete.numbered_of_num_pos hBoth.1)
        (hIdoms.2 v hBoth.1)).2
    · cases hParent
  closed := by
    intro v p _ hParent
    split at hParent
    · rename_i hBoth
      cases hParent
      exact Finset.mem_erase.mpr ⟨hBoth.2,
        mem_vertices.mpr
          (hComplete.inRange
            (idom_numbered hComplete
              (hComplete.numbered_of_num_pos hBoth.1)
              (hIdoms.2 v hBoth.1)).1)⟩
    · cases hParent

section Forest

variable {hComplete : r.Complete g}
variable {hIdoms : HasIdoms g r dom}

theorem mem_belowRoot :
    v ∈ (belowRoot hComplete hIdoms).nodes ↔
      v ≠ 0 ∧ InRange g.order v := by
  change v ∈ (vertices g).erase 0 ↔ _
  rw [Finset.mem_erase, mem_vertices]

theorem belowRoot_parent
    (hPos : 0 < r.num v)
    (hNe : dom v ≠ 0) :
    (belowRoot hComplete hIdoms).parent v = some (dom v) :=
  if_pos ⟨hPos, hNe⟩

theorem belowRoot_parent_eq_some :
    (belowRoot hComplete hIdoms).parent v = some d ↔
      0 < r.num v ∧ d ≠ 0 ∧ dom v = d := by
  change (if 0 < r.num v ∧ dom v ≠ 0 then some (dom v)
    else none) = some d ↔ _
  split
  · rename_i hBoth
    rw [Option.some_inj]
    constructor
    · intro hEq
      exact ⟨hBoth.1, hEq ▸ hBoth.2, hEq⟩
    · intro hAll
      exact hAll.2.2
  · rename_i hNot
    constructor
    · intro hNone
      cases hNone
    · rintro ⟨hPos, hNe, hEq⟩
      exact absurd ⟨hPos, hEq ▸ hNe⟩ hNot

/- Below a vertex but the root nothing is different. -/
theorem up_belowRoot_iff
    (hNe : d ≠ 0) :
    Up (belowRoot hComplete hIdoms).parent w d ↔
      Up (domForest hComplete hIdoms).parent w d := by
  constructor
  · intro hUp
    refine Relation.ReflTransGen.mono ?_ w d hUp
    intro a b hParent
    have hAll := belowRoot_parent_eq_some.mp hParent
    change (if 0 < r.num a then some (dom a) else none) = _
    rw [if_pos hAll.1, hAll.2.2]
  · intro hUp
    induction hUp using
        Relation.ReflTransGen.head_induction_on with
    | refl => exact Up.refl d
    | @head a b hParent hRest ih =>
        have hRoot :
            (domForest hComplete hIdoms).parent 0 = none := by
          simp [domForest, hComplete.num_root]
        have hNeB : b ≠ 0 := by
          intro hEq
          rw [hEq] at hRest
          exact hNe (Up.eq_of_root hRest hRoot).symm
        have hBoth : 0 < r.num a ∧ dom a = b := by
          change (if 0 < r.num a then some (dom a)
            else none) = some b at hParent
          split at hParent
          · rename_i hPos
            exact ⟨hPos, Option.some.inj hParent⟩
          · cases hParent
        exact
          (Up.single (belowRoot_parent_eq_some.mpr
            ⟨hBoth.1, hNeB, hBoth.2⟩)).trans ih

/- The reached vertices below `v` are those it dominates. -/
theorem mem_subtree_belowRoot
    (hReachV : g.Reachable v)
    (hNe : v ≠ 0) :
    w ∈ subtree (belowRoot hComplete hIdoms) v ↔
      g.Reachable w ∧ Dominates g.Edge 0 v w := by
  rw [mem_subtree, mem_belowRoot, up_belowRoot_iff hNe]
  constructor
  · rintro ⟨_, hUp⟩
    have hReachW : g.Reachable w := by
      by_cases hEq : w = v
      · rw [hEq]
        exact hReachV
      · rcases hUp.parent_of_ne hEq with ⟨p, hParent, _⟩
        apply hComplete.numbered_iff_reachable.mp
        apply hComplete.numbered_of_num_pos
        by_contra hNot
        change (if 0 < r.num w then some (dom w)
          else none) = some p at hParent
        rw [if_neg hNot] at hParent
        cases hParent
    exact ⟨hReachW,
      (up_iff_dominates hComplete hIdoms
        (hComplete.numbered_iff_reachable.mpr
          hReachW)).mp hUp⟩
  · rintro ⟨hReachW, hDom⟩
    have hNumbered :=
      hComplete.numbered_iff_reachable.mpr hReachW
    refine ⟨⟨?_, hComplete.inRange hNumbered⟩,
      (up_iff_dominates hComplete hIdoms hNumbered).mpr
        hDom⟩
    intro hEq
    rw [hEq] at hDom
    exact hNe (dominates_root_iff.mp hDom)

end Forest

------------------------------------------------------------
-- The Leaf Loop
------------------------------------------------------------

/-
  The state of the leaf loop, but for the root.  Vertices
  enter the queue if they have counters.
-/
structure LeafInvariant
    (hComplete : r.Complete g)
    (hIdoms : HasIdoms g r dom)
    (sizes : jlong → jlong)
    (done : Finset jlong)
    (queue : jlongs)
    (count total : jlong → jlong) : Prop where
  stripped :
    Stripped (belowRoot hComplete hIdoms) sizes
      (InRange r.n) done
      (queue.filter (fun v => v ≠ 0)) count total
  queue_inRange : ∀ v ∈ queue, InRange r.n v

/-
  A bound on the leaves that are still to be taken from the
  queue.  The root enters when its counter becomes 0, which
  happens once.
-/
def leavesLeft
    (g : FlowGraph)
    (done : Finset jlong)
    (queue : jlongs)
    (count : jlong → jlong) : Nat :=
  (((vertices g).erase 0) \ done).card + queue.count 0 +
    min (count 0).toNat 1

section Loop

variable {hComplete : r.Complete g}
variable {hIdoms : HasIdoms g r dom}
variable {done : Finset jlong}
variable {queue : jlongs}

/- One more vertex is done. -/
theorem card_sdiff_insert
    (hMem : v ∈ (vertices g).erase 0)
    (hNew : v ∉ done) :
    (((vertices g).erase 0) \ insert v done).card <
      (((vertices g).erase 0) \ done).card := by
  rw [Finset.sdiff_insert]
  exact Finset.card_erase_lt_of_mem
    (Finset.mem_sdiff.mpr ⟨hMem, hNew⟩)

/- The queue after a leaf of the root's has been taken. -/
theorem leavesLeft_root
    (hMem : v ∈ (vertices g).erase 0)
    (hNew : v ∉ done) :
    leavesLeft g (insert v done)
        (if count 0 - 1 = 0 then queue ++ [0] else queue)
        (Function.update count 0 (count 0 - 1)) <
      leavesLeft g done (v :: queue) count := by
  have hCard := card_sdiff_insert hMem hNew
  have hNe : v ≠ 0 := (Finset.mem_erase.mp hMem).1
  unfold leavesLeft
  rw [Function.update_self, List.count_cons_of_ne hNe]
  split
  · rename_i hLast
    have hOne : count 0 = 1 := Int.sub_eq_zero.mp hLast
    rw [List.count_append, List.count_singleton_self, hOne]
    have hZero : min (1 - 1 : jlong).toNat 1 = 0 := rfl
    have hRest : min (1 : jlong).toNat 1 = 1 := rfl
    omega
  · have hLe :
        min (count 0 - 1).toNat 1 ≤ min (count 0).toNat 1 :=
      min_le_min_right 1
        (Int.toNat_le_toNat (Int.sub_le_self _ Int.one_nonneg))
    omega

/- The root does nothing but leave the queue. -/
theorem LeafInvariant.step_root
    (hInvariant :
      LeafInvariant hComplete hIdoms sizes done (0 :: queue)
        count total) :
    leafStep (tabulate g.order dom) 0
        ⟨queue, tabulate r.n count,
          tabulate g.order total⟩ =
      some ⟨queue, tabulate r.n count,
        tabulate g.order total⟩ ∧
    LeafInvariant hComplete hIdoms sizes done queue count
      total ∧
    leavesLeft g done queue count <
      leavesLeft g done (0 :: queue) count := by
  refine ⟨?_, ⟨?_, ?_⟩, ?_⟩
  · simp [leafStep, read_tabulate _ g.root_inRange,
      hIdoms.1]
  · have hStripped := hInvariant.stripped
    rw [List.filter_cons_of_neg (by simp)] at hStripped
    exact hStripped
  · exact fun x hMem =>
      hInvariant.queue_inRange x (List.mem_cons_of_mem 0 hMem)
  · unfold leavesLeft
    rw [List.count_cons_self]
    omega

/- What the queue holds after a leaf has been taken. -/
theorem LeafInvariant.inRange_of_mem
    (hInvariant :
      LeafInvariant hComplete hIdoms sizes done (v :: queue)
        count total)
    (hRange : InRange r.n d)
    {c x : jlong}
    (hMem : x ∈ if c = 0 then queue ++ [d] else queue) :
    InRange r.n x := by
  have hRest : ∀ x ∈ queue, InRange r.n x :=
    fun x hX =>
      hInvariant.queue_inRange x (List.mem_cons_of_mem v hX)
  split at hMem
  · rcases List.mem_append.mp hMem with hOld | hLast
    · exact hRest x hOld
    · rw [List.mem_singleton.mp hLast]
      exact hRange
  · exact hRest x hMem

/- A leaf that belongs to the root passes nothing on. -/
theorem LeafInvariant.step_rootChild
    (hInvariant :
      LeafInvariant hComplete hIdoms sizes done (v :: queue)
        count total)
    (hNe : v ≠ 0)
    (hDom : dom v = 0) :
    ∃ queue' count' total',
      leafStep (tabulate g.order dom) v
          ⟨queue, tabulate r.n count,
            tabulate g.order total⟩ =
        some ⟨queue', tabulate r.n count',
          tabulate g.order total'⟩ ∧
      LeafInvariant hComplete hIdoms sizes (insert v done)
        queue' count' total' ∧
      leavesLeft g (insert v done) queue' count' <
        leavesLeft g done (v :: queue) count := by
  have hStripped := hInvariant.stripped
  rw [List.filter_cons_of_pos (by simpa using hNe)]
    at hStripped
  rcases hStripped.queue_mem v List.mem_cons_self with
    ⟨hMem, hNew⟩
  have hRange := (mem_belowRoot.mp hMem).2
  have hZero : InRange r.n 0 :=
    ⟨le_rfl, by exact_mod_cast hComplete.pos⟩
  have hParent :
      (belowRoot hComplete hIdoms).parent v = none :=
    if_neg (fun hBoth => hBoth.2 hDom)
  have hOther :
      ∀ (f : jlong → jlong) (y : jlong),
        ∀ x ∈ (belowRoot hComplete hIdoms).nodes,
          Function.update f 0 y x = f x :=
    fun f y x hX =>
      Function.update_of_ne (mem_belowRoot.mp hX).1 y f
  refine ⟨_, _, Function.update total 0 (total 0 + total v),
    ?_, ⟨?_, ?_⟩, leavesLeft_root hMem hNew⟩
  · simp [leafStep, read_tabulate _ hRange, hDom,
      read_tabulate _ g.root_inRange,
      write_tabulate _ _ g.root_inRange,
      read_tabulate _ hZero, write_tabulate _ _ hZero]
  · have hQueue :
        (if count 0 - 1 = 0 then queue ++ [0]
            else queue).filter (fun x => x ≠ 0) =
          queue.filter (fun x => x ≠ 0) := by
      split
      · simp
      · rfl
    rw [hQueue]
    exact (hStripped.step_root hParent).congr
      (hOther count _) (hOther total _)
  · exact fun x hX => hInvariant.inRange_of_mem hZero hX

/- Other leaves pass on what they hold. -/
theorem LeafInvariant.step_child
    (hCounted : CountedIdoms g r)
    (hInvariant :
      LeafInvariant hComplete hIdoms sizes done (v :: queue)
        count total)
    (hNe : v ≠ 0)
    (hPos : 0 < r.num v)
    (hDom : dom v ≠ 0) :
    ∃ queue' count' total',
      leafStep (tabulate g.order dom) v
          ⟨queue, tabulate r.n count,
            tabulate g.order total⟩ =
        some ⟨queue', tabulate r.n count',
          tabulate g.order total'⟩ ∧
      LeafInvariant hComplete hIdoms sizes (insert v done)
        queue' count' total' ∧
      leavesLeft g (insert v done) queue' count' <
        leavesLeft g done (v :: queue) count := by
  have hStripped := hInvariant.stripped
  rw [List.filter_cons_of_pos (by simpa using hNe)]
    at hStripped
  rcases hStripped.queue_mem v List.mem_cons_self with
    ⟨hMem, hNew⟩
  have hRange := (mem_belowRoot.mp hMem).2
  have hIdom := hIdoms.2 v hPos
  have hRangeC := hCounted (dom v) v hPos hIdom
  have hRangeD :=
    hComplete.inRange (idom_numbered hComplete
      (hComplete.numbered_of_num_pos hPos) hIdom).1
  have hNonneg : 0 ≤ dom v := hRangeC.1
  have hStep :=
    hStripped.step (belowRoot_parent hPos hDom) hRangeC
  refine
    ⟨if count (dom v) - 1 = 0 then queue ++ [dom v]
        else queue,
      Function.update count (dom v) (count (dom v) - 1),
      Function.update total (dom v)
        (total (dom v) + total v),
      ?_, ⟨?_, ?_⟩, ?_⟩
  · simp [leafStep, read_tabulate _ hRange, hNonneg,
      read_tabulate _ hRangeD, write_tabulate _ _ hRangeD,
      read_tabulate _ hRangeC, write_tabulate _ _ hRangeC]
  · have hQueue :
        (if count (dom v) - 1 = 0 then queue ++ [dom v]
            else queue).filter (fun x => x ≠ 0) =
          if count (dom v) - 1 = 0 then
            queue.filter (fun x => x ≠ 0) ++ [dom v]
          else
            queue.filter (fun x => x ≠ 0) := by
      split
      · simp [hDom]
      · rfl
    rw [hQueue]
    exact hStep
  · exact fun x hX => hInvariant.inRange_of_mem hRangeC hX
  · have hCard := card_sdiff_insert hMem hNew
    have hCount :
        (if count (dom v) - 1 = 0 then queue ++ [dom v]
            else queue).count 0 = queue.count 0 := by
      split
      · rw [List.count_append, List.count_cons_of_ne hDom]
        simp
      · rfl
    unfold leavesLeft
    rw [hCount, Function.update_of_ne (Ne.symm hDom),
      List.count_cons_of_ne hNe]
    omega

/- One leaf is taken from the queue. -/
theorem LeafInvariant.step
    (hOthers : ∀ w, ¬ r.Numbered w → dom w = 0)
    (hCounted : CountedIdoms g r)
    (hInvariant :
      LeafInvariant hComplete hIdoms sizes done (v :: queue)
        count total) :
    ∃ done' queue' count' total',
      leafStep (tabulate g.order dom) v
          ⟨queue, tabulate r.n count,
            tabulate g.order total⟩ =
        some ⟨queue', tabulate r.n count',
          tabulate g.order total'⟩ ∧
      LeafInvariant hComplete hIdoms sizes done' queue'
        count' total' ∧
      leavesLeft g done' queue' count' <
        leavesLeft g done (v :: queue) count := by
  by_cases hRoot : v = 0
  · subst hRoot
    exact ⟨done, queue, count, total, hInvariant.step_root⟩
  by_cases hDom : dom v = 0
  · rcases hInvariant.step_rootChild hRoot hDom with
      ⟨queue', count', total', hStep⟩
    exact ⟨_, queue', count', total', hStep⟩
  · have hNumbered : r.Numbered v := by
      by_contra hNot
      exact hDom (hOthers v hNot)
    rcases hInvariant.step_child hCounted hRoot
        (hComplete.num_pos hNumbered hRoot) hDom with
      ⟨queue', count', total', hStep⟩
    exact ⟨_, queue', count', total', hStep⟩

/- The loop empties the queue. -/
theorem exists_leafLoop
    (hOthers : ∀ w, ¬ r.Numbered w → dom w = 0)
    (hCounted : CountedIdoms g r)
    (fuel : Nat)
    (hInvariant :
      LeafInvariant hComplete hIdoms sizes done queue count
        total)
    (hFuel : leavesLeft g done queue count < fuel) :
    ∃ s done' count' total',
      leafLoop (tabulate g.order dom) fuel
          ⟨queue, tabulate r.n count,
            tabulate g.order total⟩ = some s ∧
      s.retainedSizes = tabulate g.order total' ∧
      Stripped (belowRoot hComplete hIdoms) sizes
        (InRange r.n) done' [] count' total' := by
  induction fuel generalizing done queue count total with
  | zero => exact absurd hFuel (Nat.not_lt_zero _)
  | succ fuel ih =>
      cases queue with
      | nil =>
          exact ⟨_, done, count, total, rfl, rfl,
            hInvariant.stripped⟩
      | cons v queue =>
          rcases hInvariant.step hOthers hCounted with
            ⟨done', queue', count', total', hStep,
              hInvariant', hLess⟩
          rcases ih hInvariant' (by omega) with
            ⟨s, done'', count'', total'', hLoop, hResult⟩
          refine ⟨s, done'', count'', total'', ?_, hResult⟩
          unfold leafLoop
          dsimp only
          rw [hStep]
          exact hLoop

end Loop

------------------------------------------------------------
-- The Result
------------------------------------------------------------

/- The reached vertices that `v` dominates. -/
open scoped Classical in
noncomputable def reachedDominated
    (g : FlowGraph)
    (v : jlong) : Finset jlong :=
  (reachedVertices g).filter
    (fun w => Dominates g.Edge 0 v w)

theorem inRange_of_reachable
    (hReach : g.Reachable w) :
    InRange g.order w := by
  rcases exists_dfs g g.order le_rfl with ⟨r, _, hComplete⟩
  exact hComplete.inRange
    (hComplete.numbered_iff_reachable.mpr hReach)

theorem reachable_of_dominates
    (hReach : g.Reachable w)
    (hDom : Dominates g.Edge 0 d w) :
    g.Reachable d := by
  rcases exists_dfs g g.order le_rfl with ⟨r, _, hComplete⟩
  have hTree := hComplete.depthFirstTree
  have hNumbered :=
    hComplete.numbered_iff_reachable.mpr hReach
  apply hComplete.numbered_iff_reachable.mp
  exact hTree.reached_of_ancestor
    (hTree.ancestor_of_dominates hNumbered hDom) hNumbered

theorem mem_reachedVertices :
    w ∈ reachedVertices g ↔ g.Reachable w := by
  classical
  unfold reachedVertices
  rw [Finset.mem_filter, mem_vertices]
  exact and_iff_right_of_imp inRange_of_reachable

theorem mem_reachedDominated :
    w ∈ reachedDominated g v ↔
      g.Reachable w ∧ Dominates g.Edge 0 v w := by
  classical
  unfold reachedDominated
  rw [Finset.mem_filter, mem_reachedVertices]

theorem subtree_belowRoot
    (hComplete : r.Complete g)
    (hIdoms : HasIdoms g r dom)
    (hReach : g.Reachable v)
    (hNe : v ≠ 0) :
    subtree (belowRoot hComplete hIdoms) v =
      reachedDominated g v := by
  ext w
  rw [mem_subtree_belowRoot hReach hNe,
    mem_reachedDominated]

/- Before the leaf loop nothing is done. -/
theorem leafInvariant_init
    (hComplete : r.Complete g)
    (hInvariant :
      CorrectionInvariant g r (r.n - 1) dom count) :
    LeafInvariant hComplete
      (hInvariant.doms.hasIdoms hComplete) sizes ∅
      ((fromOne r.n).filter (fun i => count i = 0)) count
      sizes := by
  have hLe := hComplete.valid.n_le_order
  have hMem :
      ∀ v, v ∈ (fromOne r.n).filter (fun i => count i = 0) ↔
        (v ≠ 0 ∧ InRange r.n v) ∧ count v = 0 := by
    intro v
    rw [List.mem_filter, mem_fromOne, decide_eq_true_iff]
  constructor
  · apply Stripped.init
      ((List.Nodup.filter _ (nodup_fromOne _)).filter _)
    · intro d hNode
      rcases mem_belowRoot.mp hNode with ⟨hNe, hRange⟩
      rw [hInvariant.counts d hRange]
      congr 2
      ext w
      rw [mem_childrenUpTo, mem_waitingChildren,
        mem_belowRoot, belowRoot_parent_eq_some]
      constructor
      · rintro ⟨hRangeW, hPos, _, hEq⟩
        exact ⟨⟨hComplete.ne_root_of_num_pos hPos, hRangeW⟩,
          ⟨hPos, hNe, hEq⟩, Finset.notMem_empty w⟩
      · rintro ⟨⟨_, hRangeW⟩, ⟨hPos, _, hEq⟩, _⟩
        have hLt :=
          hComplete.num_lt
            (hComplete.numbered_of_num_pos hPos)
        exact ⟨hRangeW, hPos, by omega, hEq⟩
    · intro v hQueue
      rcases (hMem v).mp (List.mem_of_mem_filter hQueue) with
        ⟨⟨hNe, hRange⟩, hZero⟩
      refine ⟨mem_belowRoot.mpr ⟨hNe, hRange.1, ?_⟩, hRange,
        hZero⟩
      have hLt := hRange.2
      omega
    · intro v hNode hRange _ hZero
      have hNe := (mem_belowRoot.mp hNode).1
      exact List.mem_filter.mpr
        ⟨(hMem v).mpr ⟨⟨hNe, hRange⟩, hZero⟩,
          decide_eq_true hNe⟩
  · intro v hQueue
    exact ((hMem v).mp hQueue).1.2

theorem leavesLeft_init
    (n : jlong) :
    leavesLeft g ∅
        ((fromOne n).filter (fun i => count i = 0)) count ≤
      g.order := by
  have hNone :
      ((fromOne n).filter
        (fun i => count i = 0)).count 0 = 0 := by
    apply List.count_eq_zero_of_not_mem
    intro hMem
    have hOne := List.mem_of_mem_filter hMem
    unfold fromOne at hOne
    rcases List.mem_map.mp hOne with ⟨k, _, hEq⟩
    have hInt : (k : Int) + 1 = 0 := hEq
    omega
  have hCard :
      ((vertices g).erase 0).card = g.order - 1 := by
    rw [Finset.card_erase_of_mem
      (mem_vertices.mpr g.root_inRange), card_vertices]
  have hPos : 0 < g.order := by
    have hLt := g.root_inRange.2
    exact_mod_cast hLt
  unfold leavesLeft
  rw [hNone, Finset.sdiff_empty, hCard]
  omega

/-
  If every immediate dominator has a counter, the
  computation returns.  For positive sizes the result for a
  reached vertex is the size of what it dominates exactly if
  whatever else it dominates has a counter, too.
-/
theorem exists_calculate_of_counted
    (sizes : jlongs)
    (hSizes : sizes.length = g.order)
    (hBelow : IdomsBelowCount g)
    (hFuel : g.order < fuel) :
    ∃ result,
      calculateRetainedSizesViaDominatorTree fuel g.edges
          sizes =
        some (tabulate g.order result) ∧
      ((∀ w, w ≠ 0 → InRange g.order w →
          0 < sizeAt sizes w) →
        ∀ v, v ≠ 0 → g.Reachable v →
          (result v =
              ∑ w ∈ reachedDominated g v, sizeAt sizes w ↔
            ∀ w ∈ reachedDominated g v, w ≠ v →
              w < (reachedVertices g).card)) := by
  have hCounted :
      ∀ r : Search, r.Complete g → CountedIdoms g r :=
    fun r hComplete => (idomsBelowCount_iff hComplete).mp hBelow
  rcases dominators_of_counted hCounted hFuel.le with
    ⟨r, dom, count, hDominators, hComplete, hInvariant⟩
  have hIdoms := hInvariant.doms.hasIdoms hComplete
  have hInit :
      LeafInvariant hComplete hIdoms (sizeAt sizes) ∅
        ((fromOne r.n).filter (fun i => count i = 0)) count
        (sizeAt sizes) :=
    leafInvariant_init hComplete hInvariant
  rcases exists_leafLoop hInvariant.doms.untouched
      (hCounted r hComplete) fuel hInit
      ((leavesLeft_init _).trans_lt hFuel) with
    ⟨s, done, count', result, hLoop, hResult, hStripped⟩
  refine ⟨result, ?_, ?_⟩
  · have hCopy := copySizes_eq sizes
    rw [hSizes] at hCopy
    have hOrder : g.edges.length = g.order := rfl
    have hN : (r.numbering g.order).n = r.n := rfl
    have hInitial :
        initialLeaves r.n (tabulate r.n count) =
          some ((fromOne r.n).filter
            (fun i => count i = 0)) :=
      initialLeaves_eq r.n le_rfl
    simp only [calculateRetainedSizesViaDominatorTree,
      hOrder, hCopy, hDominators, Option.bind_eq_bind,
      Option.bind_some, hN, hInitial]
    change (leafLoop (tabulate g.order dom) fuel
      ⟨_, _, _⟩).bind _ = _
    rw [hLoop, Option.bind_some, hResult]
  · intro hPos v hNe hReach
    have hRange :=
      hComplete.inRange
        (hComplete.numbered_iff_reachable.mpr hReach)
    have hNode : v ∈ (belowRoot hComplete hIdoms).nodes :=
      mem_belowRoot.mpr ⟨hNe, hRange⟩
    have hCard : (reachedVertices g).card = r.n :=
      card_reachedVertices hComplete
    rw [← subtree_belowRoot hComplete hIdoms hReach hNe,
      hCard]
    constructor
    · intro hTotal w hMem hNeW
      exact (hStripped.enters_of_total hNode
        (fun x hX =>
          hPos x (mem_belowRoot.mp hX).1
            (mem_belowRoot.mp hX).2) hTotal hMem hNeW).2
    · intro hLow
      apply hStripped.total_of_empty hNode
      intro w hMem hNeW
      exact ⟨(mem_belowRoot.mp (mem_subtree.mp hMem).1).2.1,
        hLow w hMem hNeW⟩

/- A vertex that dominates another one is a dominator. -/
theorem idomsBelowCount_iff_dominates
    (g : FlowGraph) :
    IdomsBelowCount g ↔
      ∀ d w, g.Reachable w → Dominates g.Edge 0 d w →
        w ≠ d → d < (reachedVertices g).card := by
  constructor
  · intro hBelow d w hReach hDom hNe
    rcases dominators_eq (g := g) le_rfl with
      ⟨r, s, hComplete, hLoop, _⟩
    rcases correctDoms_spec hComplete hLoop with
      ⟨dom, _, hIdoms⟩
    have hUp :=
      (up_iff_dominates hComplete hIdoms
        (hComplete.numbered_iff_reachable.mpr hReach)).mpr
        hDom
    -- The last vertex on the way up is a child of `d`.
    rcases up_iff_eq_or_child.mp hUp with
      hEq | ⟨c, hParent, _⟩
    · exact absurd hEq hNe
    · change (if 0 < r.num c then some (dom c)
        else none) = some d at hParent
      split at hParent
      · rename_i hPos
        have hIdom := hIdoms.2 c hPos
        rw [Option.some.inj hParent] at hIdom
        exact hBelow d c
          (hComplete.numbered_iff_reachable.mp
            (hComplete.numbered_of_num_pos hPos))
          (hComplete.ne_root_of_num_pos hPos) hIdom
      · cases hParent
  · intro hAll d w hReach _ hIdom
    exact hAll d w hReach hIdom.dominates
      (Ne.symm hIdom.ne)

/- Without a counter for one of them it does not return. -/
theorem calculate_isSome_iff
    (sizes : jlongs)
    (hSizes : sizes.length = g.order)
    (hFuel : g.order < fuel) :
    (∃ result,
        calculateRetainedSizesViaDominatorTree fuel g.edges
          sizes = some result) ↔
      IdomsBelowCount g := by
  constructor
  · rintro ⟨result, hResult⟩
    rcases exists_dfs g g.order le_rfl with ⟨r, _, hComplete⟩
    apply (idomsBelowCount_iff hComplete).mpr
    apply (dominators_isSome_iff hComplete hFuel.le).mp
    unfold calculateRetainedSizesViaDominatorTree at hResult
    rcases Option.bind_eq_some_iff.mp hResult with
      ⟨_, _, hRest⟩
    rcases Option.bind_eq_some_iff.mp hRest with
      ⟨found, hDominators, _⟩
    exact ⟨found, hDominators⟩
  · intro hBelow
    rcases exists_calculate_of_counted sizes hSizes hBelow
        hFuel with ⟨result, hResult, _⟩
    exact ⟨_, hResult⟩

end DominatorTree

end MemoryAgent
