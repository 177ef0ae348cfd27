import MemoryAgent.Sizes.DominatorTree.Correctness

/-
  Vertices that the root does not reach: if the computation
  returns at all, they keep their own sizes.

  Main results:
    * `DominatorTree.LoopInvariant.reachable_dom`
    * `DominatorTree.leafLoop_keeps`
    * `DominatorTree.calculate_unreached`
-/

------------------------------------------------------------
-- Dominators
------------------------------------------------------------

namespace MemoryAgent

namespace DominatorTree

open StdVector Dominance

variable {g : FlowGraph}
variable {r : Search}
variable {v w : jlong}

/- The values that the vector of dominators may have. -/
def ReachedDoms
    (g : FlowGraph)
    (dom : jlongs) : Prop :=
  ∀ d ∈ dom, d = -1 ∨ g.Reachable d

/- After the main loop every dominator is reached. -/
theorem LoopInvariant.reachable_dom
    {s : Loop}
    (hComplete : r.Complete g)
    (hLoop : LoopInvariant g r 0 s)
    (hRoot : w ≠ 0) :
    g.Reachable (s.dom w) := by
  by_cases hNumbered : r.Numbered w
  · apply hComplete.numbered_iff_reachable.mp
    rcases hLoop.resolved_of_ne_root hComplete hNumbered
        hRoot with ⟨x, hSemi, ⟨hEq, _⟩ | ⟨_, hAnc, _⟩⟩
    · rw [hEq]
      exact hSemi.source
    · exact hComplete.depthFirstTree.reached_of_ancestor
        hAnc hNumbered
  · rw [hLoop.untouched w hNumbered]
    exact FlowGraph.Reachable.root

theorem LoopInvariant.reachedDoms
    {s : Loop}
    (hComplete : r.Complete g)
    (hLoop : LoopInvariant g r 0 s) :
    ReachedDoms g
      (tabulate g.order (Function.update s.dom 0 (-1))) := by
  intro d hMem
  rcases List.mem_map.mp hMem with ⟨k, _, hEqD⟩
  by_cases hZero : (k : jlong) = 0
  · rw [hZero, Function.update_self] at hEqD
    exact Or.inl hEqD.symm
  · rw [Function.update_of_ne hZero] at hEqD
    rw [← hEqD]
    exact Or.inr (hLoop.reachable_dom hComplete hZero)

theorem mem_of_write
    {α : Type}
    {xs ys : List α}
    {i : Int}
    {x y : α}
    (hWrite : write xs i x = some ys)
    (hMem : y ∈ ys) :
    y ∈ xs ∨ y = x := by
  unfold write at hWrite
  split at hWrite
  · rw [← Option.some.inj hWrite] at hMem
    exact List.mem_or_eq_of_mem_set hMem
  · cases hWrite

/- A correction copies one dominator to another place. -/
theorem correctDom_reached
    {vertex semi dom dom' : jlongs}
    (hDoms : ReachedDoms g dom)
    (hCorrect : correctDom vertex semi w dom = some dom') :
    ReachedDoms g dom' := by
  unfold correctDom at hCorrect
  simp only [Option.bind_eq_bind, Option.bind_eq_some_iff]
    at hCorrect
  rcases hCorrect with ⟨domW, _, semiW, _, x, _, hBranch⟩
  split at hBranch
  · rcases Option.bind_eq_some_iff.mp hBranch with
      ⟨d, hRead, hWrite⟩
    intro y hMem
    rcases mem_of_write hWrite hMem with hOld | hEq
    · exact hDoms y hOld
    · rw [hEq]
      exact hDoms d (mem_of_read hRead)
  · rw [← Option.some.inj hBranch]
    exact hDoms

theorem correctionStep_reached
    {vertex semi : jlongs}
    {s s' : Children}
    {i : jlong}
    (hDoms : ReachedDoms g s.dom)
    (hStep : correctionStep vertex semi s i = some s') :
    ReachedDoms g s'.dom := by
  unfold correctionStep at hStep
  simp only [Option.bind_eq_bind, Option.bind_eq_some_iff]
    at hStep
  rcases hStep with
    ⟨w, _, dom, hCorrect, domW, _, count, _, hEq⟩
  rw [← Option.some.inj hEq]
  exact correctDom_reached hDoms hCorrect

theorem correctionSteps_reached
    {vertex semi : jlongs}
    (is : List jlong)
    {s s' : Children}
    (hDoms : ReachedDoms g s.dom)
    (hLoop :
      is.foldlM (correctionStep vertex semi) s = some s') :
    ReachedDoms g s'.dom := by
  induction is generalizing s with
  | nil =>
      rw [← Option.some.inj hLoop]
      exact hDoms
  | cons i is ih =>
      rw [List.foldlM_cons] at hLoop
      rcases Option.bind_eq_some_iff.mp hLoop with
        ⟨t, hStep, hRest⟩
      exact ih (correctionStep_reached hDoms hStep) hRest

------------------------------------------------------------
-- Accumulation
------------------------------------------------------------

theorem read_of_write
    {α : Type}
    {xs ys : List α}
    {i j : Int}
    {x : α}
    (hWrite : write xs i x = some ys)
    (hNe : j ≠ i) :
    read ys j = read xs j := by
  unfold write at hWrite
  split at hWrite
  · next hRange =>
      rw [← Option.some.inj hWrite, read_set x j hRange,
        if_neg hNe]
  · cases hWrite

/- Sizes are only added to vertices that are reached. -/
theorem leafStep_keeps
    {dom : jlongs}
    {leaf : jlong}
    {s s' : Accumulation jlong}
    (hDoms : ReachedDoms g dom)
    (hNot : ¬ g.Reachable v)
    (hStep : leafStep dom leaf s = some s') :
    read s'.retainedSizes v = read s.retainedSizes v := by
  unfold leafStep at hStep
  rcases Option.bind_eq_some_iff.mp hStep with
    ⟨d, hRead, hBranch⟩
  by_cases hNonneg : 0 ≤ d
  · rw [if_pos hNonneg] at hBranch
    simp only [Option.bind_eq_bind, Option.bind_eq_some_iff]
      at hBranch
    rcases hBranch with
      ⟨sizeD, _, sizeL, _, sizes, hWrite, _, _, _, _, hEq⟩
    have hNe : v ≠ d := by
      intro hEqD
      rcases hDoms d (mem_of_read hRead) with
        hNeg | hReached
      · rw [hNeg] at hNonneg
        exact absurd hNonneg (by decide)
      · exact hNot (hEqD ▸ hReached)
    rw [← Option.some.inj hEq]
    exact read_of_write hWrite hNe
  · rw [if_neg hNonneg] at hBranch
    rw [← Option.some.inj hBranch]

theorem leafLoop_keeps
    {dom : jlongs}
    (hDoms : ReachedDoms g dom)
    (hNot : ¬ g.Reachable v)
    (fuel : Nat)
    {s s' : Accumulation jlong}
    (hLoop : leafLoop dom fuel s = some s') :
    read s'.retainedSizes v = read s.retainedSizes v := by
  induction fuel generalizing s with
  | zero => cases hLoop
  | succ fuel ih =>
      unfold leafLoop at hLoop
      split at hLoop
      · rw [← Option.some.inj hLoop]
      · next leaf leaves _ =>
          rcases Option.bind_eq_some_iff.mp hLoop with
            ⟨t, hStep, hRest⟩
          have hKeeps := leafStep_keeps hDoms hNot hStep
          exact (ih hRest).trans hKeeps

------------------------------------------------------------
-- The Result
------------------------------------------------------------

/- The dominators of a computation that gets that far. -/
theorem dominators_reached
    {fuel : Nat}
    (hFuel : g.order ≤ fuel)
    {numbering : Numbering}
    {c : Children}
    (hDominators :
      dominators fuel g.edges = some (numbering, c)) :
    ReachedDoms g c.dom := by
  rcases dominators_eq hFuel with
    ⟨r, s, hComplete, hLoop, _, _, _, hEq⟩
  rw [hEq] at hDominators
  rcases Option.map_eq_some_iff.mp hDominators with
    ⟨c', hCorrect, hPair⟩
  have hSame : c' = c := congrArg Prod.snd hPair
  rw [← hSame]
  exact correctionSteps_reached _
    (hLoop.reachedDoms hComplete) hCorrect

/- A vertex that is not reached keeps its own size. -/
theorem calculate_unreached
    {fuel : Nat}
    (hFuel : g.order ≤ fuel)
    {sizes result : jlongs}
    (hSizes : sizes.length = g.order)
    (hResult :
      calculateRetainedSizesViaDominatorTree fuel g.edges
        sizes = some result)
    (hRange : InRange g.order v)
    (hNot : ¬ g.Reachable v) :
    read result v = some (sizeAt sizes v) := by
  have hCopy := copySizes_eq sizes
  rw [hSizes] at hCopy
  have hOrder : g.edges.length = g.order := rfl
  unfold calculateRetainedSizesViaDominatorTree at hResult
  rw [hOrder, hCopy] at hResult
  simp only [Option.bind_eq_bind, Option.bind_some,
    Option.bind_eq_some_iff] at hResult
  rcases hResult with
    ⟨⟨numbering, c⟩, hDominators, leaves, _, s, hLoop, hEq⟩
  rw [← Option.some.inj hEq]
  have hKeeps :=
    leafLoop_keeps (dominators_reached hFuel hDominators)
      hNot fuel hLoop
  exact hKeeps.trans (read_tabulate _ hRange)

end DominatorTree

end MemoryAgent
