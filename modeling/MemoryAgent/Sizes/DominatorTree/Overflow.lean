import MemoryAgent.Sizes.DominatorTree.Correctness

/-
  The retained sizes as 64-bit numbers.  The computation
  commutes with every map of sizes that respects addition,
  so on `Int64` it returns the sums of the dominated sizes
  modulo `2 ^ 64`: the sums themselves as long as they fit.

  Key definitions include:
    * `DominatorTree.dominatedSize`
    * `DominatorTree.RetainsDominated`

  Main results:
    * `DominatorTree.calculate_map`
    * `DominatorTree.retainedSizes_eq_dominated`
-/

------------------------------------------------------------
-- Maps of Sizes
------------------------------------------------------------

namespace MemoryAgent

namespace DominatorTree

open StdVector Dominance

section Maps

variable {Size Size' : Type}
variable [Add Size] [Add Size']
variable {f : Size → Size'}

def Accumulation.mapSizes
    (f : Size → Size')
    (s : Accumulation Size) : Accumulation Size' where
  leaves := s.leaves
  childCount := s.childCount
  retainedSizes := s.retainedSizes.map f

theorem leafStep_map
    (hAdd : ∀ x y, f (x + y) = f x + f y)
    (dom : jlongs)
    (leaf : jlong)
    (s : Accumulation Size) :
    leafStep dom leaf (s.mapSizes f) =
      (leafStep dom leaf s).map
        (Accumulation.mapSizes f) := by
  unfold leafStep
  cases hDom : read dom leaf with
  | none => rfl
  | some d =>
      by_cases hNonneg : 0 ≤ d
      · cases hD : read s.retainedSizes d with
        | none =>
            simp [hNonneg, hD, Accumulation.mapSizes,
              read_map]
        | some sizeD =>
            cases hL : read s.retainedSizes leaf with
            | none =>
                simp [hNonneg, hL, Accumulation.mapSizes,
                  read_map]
            | some sizeL =>
                cases hWrite :
                    write s.retainedSizes d
                      (sizeD + sizeL) with
                | none =>
                    simp [hNonneg, hD, hL, hWrite, ← hAdd,
                      Accumulation.mapSizes, read_map,
                      write_map]
                | some sizes =>
                    simp [hNonneg, hD, hL, hWrite, ← hAdd,
                      Accumulation.mapSizes, read_map,
                      write_map, Option.map_bind,
                      Function.comp_def]
      · simp [hNonneg]

theorem leafLoop_map
    (hAdd : ∀ x y, f (x + y) = f x + f y)
    (dom : jlongs)
    (fuel : Nat)
    (s : Accumulation Size) :
    leafLoop dom fuel (s.mapSizes f) =
      (leafLoop dom fuel s).map
        (Accumulation.mapSizes f) := by
  induction fuel generalizing s with
  | zero => rfl
  | succ fuel ih =>
      cases hLeaves : s.leaves with
      | nil =>
          simp [leafLoop, hLeaves, Accumulation.mapSizes]
      | cons leaf leaves =>
          have hStep :=
            leafStep_map hAdd dom leaf
              { s with leaves := leaves }
          have hLeaves' :
              (s.mapSizes f).leaves = leaf :: leaves :=
            hLeaves
          have hRest :
              { s.mapSizes f with leaves := leaves } =
                Accumulation.mapSizes f
                  { s with leaves := leaves } :=
            rfl
          unfold leafLoop
          simp only [hLeaves', hLeaves, hRest, hStep,
            Option.bind_eq_bind, Option.bind_map,
            Option.map_bind]
          congr 1
          funext t
          exact ih t

omit [Add Size] [Add Size'] in
theorem copySizes_map
    (n : Nat)
    (sizes : List Size) :
    copySizes n (sizes.map f) =
      (copySizes n sizes).map (List.map f) := by
  unfold copySizes
  induction List.range n with
  | nil => rfl
  | cons k ks ih =>
      rw [List.mapM_cons, List.mapM_cons, ih, read_map]
      cases read sizes (k : Int) with
      | none => rfl
      | some x =>
          cases ks.mapM (fun (i : Nat) => read sizes i) with
          | none => rfl
          | some xs => rfl

/- The computation only adds sizes up. -/
theorem calculate_map
    (hAdd : ∀ x y, f (x + y) = f x + f y)
    (fuel : Nat)
    (graph : graph_t)
    (sizes : List Size) :
    calculateRetainedSizesViaDominatorTree fuel graph
        (sizes.map f) =
      (calculateRetainedSizesViaDominatorTree fuel graph
        sizes).map (List.map f) := by
  unfold calculateRetainedSizesViaDominatorTree
  rw [copySizes_map]
  cases copySizes graph.length sizes with
  | none => rfl
  | some retainedSizes =>
      cases dominators fuel graph with
      | none => rfl
      | some result =>
          rcases result with ⟨r, c⟩
          cases hLeaves : initialLeaves r.n c.childCount with
          | none => simp [hLeaves]
          | some leaves =>
              have hLoop :=
                leafLoop_map hAdd c.dom fuel
                  ⟨leaves, c.childCount, retainedSizes⟩
              unfold Accumulation.mapSizes at hLoop
              simp [hLeaves, hLoop, Option.map_bind,
                Option.bind_map]

end Maps

------------------------------------------------------------
-- Dominated Sizes
------------------------------------------------------------

/- The sum of the sizes that `v` dominates, unbounded. -/
noncomputable def dominatedSize
    (g : FlowGraph)
    (sizes : List Int64)
    (v : jlong) : Int :=
  ∑ w ∈ dominated g v, sizeAt (sizes.map Int64.toInt) w

/- The computation terminates and returns these sums. -/
def RetainsDominated
    (g : FlowGraph)
    (sizes : List Int64) : Prop :=
  ∃ result : List Int64,
    (∀ fuel, g.order < fuel →
      calculateRetainedSizesViaDominatorTree fuel g.edges
        sizes = some result) ∧
    result.length = g.order ∧
    ∀ v, InRange g.order v →
      ∃ x, read result v = some x ∧
        x.toInt = dominatedSize g sizes v

/- With enough fuel it returns the sums modulo `2 ^ 64`. -/
theorem calculate_ofInt
    {g : FlowGraph}
    (sizes : List Int64)
    (hSizes : sizes.length = g.order)
    (hReach : ∀ v, InRange g.order v → g.Reachable v)
    (fuel : Nat)
    (hFuel : g.order < fuel) :
    calculateRetainedSizesViaDominatorTree fuel g.edges
        sizes =
      some (tabulate g.order
        (fun v =>
          Int64.ofInt (dominatedSize g sizes v))) := by
  have hLength :
      (sizes.map Int64.toInt).length = g.order := by
    rw [List.length_map]
    exact hSizes
  rcases calculate_spec (sizes.map Int64.toInt) hLength
      hReach hFuel with ⟨result, hExact, hSum⟩
  have hSame :
      (sizes.map Int64.toInt).map Int64.ofInt = sizes := by
    simp [Function.comp_def]
  have hMap :=
    calculate_map Int64.ofInt_add fuel g.edges
      (sizes.map Int64.toInt)
  rw [hSame, hExact, Option.map_some] at hMap
  rw [hMap, tabulate_congr hSum]
  simp [tabulate, dominatedSize, Function.comp_def]

/-
  On a graph whose vertices the root all reaches, the
  computation terminates, and the result for `v` is the sum
  of the sizes of the vertices that `v` dominates, modulo
  `2 ^ 64`.  It is the sum itself exactly if that fits.
-/
theorem retainedSizes_eq_dominated
    (g : FlowGraph)
    (sizes : List Int64)
    (hSizes : sizes.length = g.order)
    (hReach : ∀ v, InRange g.order v → g.Reachable v) :
    (∃ result : List Int64,
      (∀ fuel, g.order < fuel →
        calculateRetainedSizesViaDominatorTree fuel g.edges
          sizes = some result) ∧
      result.length = g.order ∧
      ∀ v, InRange g.order v →
        read result v =
          some (Int64.ofInt (dominatedSize g sizes v))) ∧
    (RetainsDominated g sizes ↔
      ∀ v, InRange g.order v →
        -2 ^ 63 ≤ dominatedSize g sizes v ∧
          dominatedSize g sizes v < 2 ^ 63) := by
  have hResult := calculate_ofInt sizes hSizes hReach
  refine ⟨⟨_, hResult, length_tabulate _ _,
    fun v hRange => read_tabulate _ hRange⟩, ?_⟩
  constructor
  · rintro ⟨result, _, _, hRead⟩ v hRange
    rcases hRead v hRange with ⟨x, _, hEq⟩
    rw [← hEq]
    exact ⟨Int64.le_toInt x, Int64.toInt_lt x⟩
  · intro hFits
    refine ⟨_, hResult, length_tabulate _ _, ?_⟩
    intro v hRange
    rcases hFits v hRange with ⟨hLow, hHigh⟩
    exact ⟨_, read_tabulate _ hRange,
      Int64.toInt_ofInt_of_le hLow hHigh⟩

/- A diamond with a back edge. -/
def diamond : FlowGraph where
  edges := [[1, 2], [3], [3], [1, 3]]
  nonempty := by decide
  inRange := by decide

theorem retainedSizes_eq_dominated_diamond :
    (∃ result : List Int64,
      (∀ fuel, diamond.order < fuel →
        calculateRetainedSizesViaDominatorTree fuel
          diamond.edges [1, 10, 100, 1000] = some result) ∧
      result.length = diamond.order ∧
      ∀ v, InRange diamond.order v →
        read result v =
          some (Int64.ofInt
            (dominatedSize diamond [1, 10, 100, 1000]
              v))) ∧
    (RetainsDominated diamond [1, 10, 100, 1000] ↔
      ∀ v, InRange diamond.order v →
        -2 ^ 63 ≤
            dominatedSize diamond [1, 10, 100, 1000] v ∧
          dominatedSize diamond [1, 10, 100, 1000] v <
            2 ^ 63) := by
  have hOne : diamond.Reachable 1 :=
    FlowGraph.Reachable.step FlowGraph.Reachable.root
      ⟨[1, 2], rfl, by decide⟩
  have hTwo : diamond.Reachable 2 :=
    FlowGraph.Reachable.step FlowGraph.Reachable.root
      ⟨[1, 2], rfl, by decide⟩
  have hThree : diamond.Reachable 3 :=
    FlowGraph.Reachable.step hOne ⟨[3], rfl, by decide⟩
  apply retainedSizes_eq_dominated diamond
    [1, 10, 100, 1000] rfl
  rintro v ⟨hNonneg, hLt⟩
  have hOrder : diamond.order = 4 := rfl
  rw [hOrder] at hLt
  have hCases :
      ∀ x : Int, 0 ≤ x → x < 4 →
        x = 0 ∨ x = 1 ∨ x = 2 ∨ x = 3 := by
    intro x
    omega
  rcases hCases v hNonneg hLt with hEq | hEq | hEq | hEq
  · rw [hEq]
    exact FlowGraph.Reachable.root
  · rw [hEq]
    exact hOne
  · rw [hEq]
    exact hTwo
  · rw [hEq]
    exact hThree

/- The root and one successor. -/
def successor : FlowGraph where
  edges := [[1], []]
  nonempty := by decide
  inRange := by decide

/- The largest size and one more. -/
theorem not_retainsDominated :
    ¬ ∀ (g : FlowGraph) (sizes : List Int64),
        sizes.length = g.order →
        (∀ v, InRange g.order v → g.Reachable v) →
        RetainsDominated g sizes := by
  intro hAll
  have hRoot : InRange successor.order 0 := by decide
  have hOne : InRange successor.order 1 := by decide
  have hCases :
      ∀ v : jlong, InRange successor.order v →
        v = 0 ∨ v = 1 := by
    rintro v ⟨hNonneg, hLt⟩
    have hOrder : successor.order = 2 := rfl
    rw [hOrder] at hLt
    have hBound :
        ∀ x : Int, 0 ≤ x → x < 2 → x = 0 ∨ x = 1 := by
      intro x
      omega
    exact hBound v hNonneg hLt
  have hReach :
      ∀ v, InRange successor.order v →
        successor.Reachable v := by
    intro v hRange
    rcases hCases v hRange with hEq | hEq
    · rw [hEq]
      exact FlowGraph.Reachable.root
    · rw [hEq]
      exact FlowGraph.Reachable.step
        FlowGraph.Reachable.root ⟨[1], rfl, by decide⟩
  rcases hAll successor [Int64.maxValue, 1] rfl hReach with
    ⟨_, _, _, hRead⟩
  rcases hRead 0 hRoot with ⟨x, _, hEq⟩
  have hDominated :
      dominated successor 0 = {0, 1} := by
    ext w
    rw [mem_dominated, Finset.mem_insert,
      Finset.mem_singleton]
    constructor
    · intro hBoth
      exact hCases w hBoth.1
    · rintro (hEqW | hEqW)
      · rw [hEqW]
        exact ⟨hRoot, Dominates.refl 0⟩
      · rw [hEqW]
        exact ⟨hOne, root_dominates 1⟩
  have hSum :
      dominatedSize successor [Int64.maxValue, 1] 0 =
        2 ^ 63 := by
    unfold dominatedSize
    rw [hDominated]
    decide
  rw [hSum] at hEq
  have hLt := Int64.toInt_lt x
  omega

end DominatorTree

end MemoryAgent
