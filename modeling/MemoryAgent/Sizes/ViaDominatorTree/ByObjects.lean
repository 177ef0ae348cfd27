import Mathlib.Algebra.Order.BigOperators.Group.Finset
import MemoryAgent.Sizes.DominatorTree.Unreached
import MemoryAgent.Sizes.RetainedSizeAndHeldObjects
import MemoryAgent.Sizes.ViaDominatorTree.CountedObjects

/-
  Retained sizes of listed objects by way of a dominator
  tree, compared with the sizes of the objects one by one.

  Key definitions include:
    * `RetainedSizesViaDominatorTreeAction.Agrees`
    * `RetainedSizesViaDominatorTreeAction.numbered`
    * `RetainedSizesViaDominatorTreeAction.counted`
    * `RetainedSizesViaDominatorTreeAction.CountersSuffice`

  Main results:
    * `RetainedSizesViaDominatorTreeAction.agrees_of_rooted`
    * `RetainedSizesViaDominatorTreeAction.agrees_iff`
    * `RetainedSizesViaDominatorTreeAction.not_agrees`
-/

------------------------------------------------------------
-- Agreement
------------------------------------------------------------

namespace MemoryAgent

namespace ViaDominatorTree

namespace RetainedSizesViaDominatorTreeAction

open StdVector DominatorTree
open RetainedSizeAndHeldObjects (retainedSum)

variable {O : Type}
variable [DecidableEq O]
variable [Fintype O]

/-
  The sizes of a result are, index by index, those that the
  action for a single object computes.
-/
structure Agrees
    (h : Heap O)
    (objects : List O)
    (result : Result) : Prop where
  shallow : result.shallowSizes = objects.map h.size
  retained :
    result.retainedSizes = objects.map (retainedSum h)
  size :
    ∀ (i : Nat) (o : O), objects[i]? = some o →
      ∀ first second heldObjects,
        RetainedSizeAndHeldObjects.Uninterrupted h o first
            second heldObjects →
          result.retainedSizes[i]? =
            some
              (RetainedSizeAndHeldObjects.executeOperation h o
                first second heldObjects).retainedSize

/- The single sizes are the sums of what is retained. -/
theorem Agrees.of_sums
    {h : Heap O}
    {objects : List O}
    {result : Result}
    (hShallow : result.shallowSizes = objects.map h.size)
    (hRetained :
      result.retainedSizes = objects.map (retainedSum h)) :
    Agrees h objects result := by
  refine ⟨hShallow, hRetained, ?_⟩
  intro i o hGet first second heldObjects hRun
  have hUser :=
    RetainedSizeAndHeldObjects.estimateObjectSize_user
      hRun.first_complete hRun.second_complete
  rw [hRetained, List.getElem?_map, hGet]
  exact congrArg some hUser.symm

omit [DecidableEq O] [Fintype O] in
theorem untagged_start
    (objects : List (Option O)) :
    ∀ o ∈ objects,
      (0 : jlong) = 0 ∨ (0 : jlong) = objectOfClassTag :=
  fun _ _ => Or.inl rfl

theorem exists_uninterrupted
    (h : Heap O)
    (array : InputArray O) :
    ∃ first second, Uninterrupted h array first second :=
  exists_traversed (isInputArray h array)
    (untagged_start _) (fun _ _ => rfl)

------------------------------------------------------------
-- Counters
------------------------------------------------------------

/-
  The objects that get vertices, by number: the listed ones,
  and then the others as the second traversal reports them.
  What the roots reach around the listed ones gets none.
-/
open scoped Classical in
noncomputable def numbered
    (h : Heap O)
    (objects : List O)
    (second : List (Report (Option O))) : List O :=
  ((objects ++ second.filterMap Report.referee).filter
    (fun o =>
      ¬ h.ReachedAvoiding (· ∈ objects) o)).eraseDups

/-
  The first of them, as many as the roots reach.  These are
  the ones that have an element in the vector `childCount`.
-/
open scoped Classical in
noncomputable def counted
    (h : Heap O)
    (objects : List O)
    (second : List (Report (Option O))) : List O :=
  (numbered h objects second).take
    ((numbered h objects second).countP
      (fun o => h.RootReachable o))

/-
  Whatever dominates an object has a counter, and so has
  what a listed object dominates.  A listed object that no
  root reaches refers to no other such object.
-/
structure CountersSuffice
    (h : Heap O)
    (objects : List O)
    (second : List (Report (Option O))) : Prop where
  dominators :
    ∀ d ∈ numbered h objects second, ∀ o, o ≠ d →
      h.Dominates d o → d ∈ counted h objects second
  dominated :
    ∀ o ∈ objects, ∀ p, p ≠ o → h.Dominates o p →
      p ∈ counted h objects second
  unreached :
    ∀ o ∈ objects, ¬ h.RootReachable o →
      ∀ p, h.Refers o p → p ≠ o → h.RootReachable p

section Run

variable {h : Heap O}
variable {array : InputArray O}
variable {first second : List (Report (Option O))}

omit [DecidableEq O] [Fintype O] in
theorem map_referee_eq
    (hSome : ∀ q ∈ second, q.referee ≠ none) :
    second.map Report.referee =
      (second.filterMap Report.referee).map some := by
  induction second with
  | nil => rfl
  | cons q second ih =>
      have hRest :=
        ih (fun r hMem => hSome r (List.mem_cons_of_mem q hMem))
      have hHead := hSome q List.mem_cons_self
      rcases Option.ne_none_iff_exists'.mp hHead with ⟨o, hEq⟩
      rw [List.map_cons, List.filterMap_cons, hEq, hRest]
      rfl

omit [DecidableEq O] [Fintype O] in
theorem outside_some_iff
    (o : O) :
    Outside (array.heap h) none (array.elements.map some)
        (some o) ↔
      h.ReachedAvoiding (· ∈ array.elements) o := by
  apply Iff.trans ?_ (array.reachedAvoiding_iff h _ o)
  constructor
  · intro hOutside
    refine Heap.ReachedAvoiding.mono ?_ hOutside
    rintro (_ | p) hAround
    · exact Or.inr rfl
    · exact Or.inl (List.mem_map.mpr ⟨p, hAround, rfl⟩)
  · intro hReached
    refine Heap.ReachedAvoiding.mono ?_ hReached
    rintro p (hMem | hEq)
    · rcases List.mem_map.mp hMem with ⟨q, hQ, hEq⟩
      rw [← hEq]
      exact hQ
    · rw [hEq]
      trivial

omit [Fintype O] in
/- Without the array these are the vertices and counters. -/
theorem vertexObjects_eq_map
    (hRun : Uninterrupted h array first second) :
    vertexObjects (array.heap h) none
        (array.elements.map some) second =
      (numbered h array.elements second).map some := by
  classical
  have hSome :=
    (Traversed.numbered (isInputArray h array)
      (untagged_start _) (fun _ _ => rfl) hRun).2
  unfold vertexObjects numbered
  rw [map_referee_eq hSome, ← List.map_append,
    List.filter_map,
    eraseDups_map (Option.some_injective O)]
  congr 2
  apply List.filter_congr
  intro o _
  exact decide_eq_decide.mpr (not_congr (outside_some_iff o))

omit [Fintype O] in
theorem countedObjects_eq_map
    (hRun : Uninterrupted h array first second) :
    countedObjects (array.heap h) none
        (vertexObjects (array.heap h) none
          (array.elements.map some) second) =
      (counted h array.elements second).map some := by
  classical
  rw [vertexObjects_eq_map hRun]
  unfold countedObjects counted
  rw [← List.map_take, List.countP_map]
  congr 2
  apply List.countP_congr
  intro o _
  rw [Function.comp_apply, decide_eq_true_iff,
    decide_eq_true_iff]
  exact rooted_some_iff h array o

------------------------------------------------------------
-- Listed Objects That Roots Reach
------------------------------------------------------------

omit [DecidableEq O] in
theorem dominatedSize_eq_retainedSum
    {o : O}
    (hRoot : h.RootReachable o) :
    dominatedSize h o = retainedSum h o := by
  classical
  unfold dominatedSize retainedSum
  apply Finset.sum_congr ?_ (fun _ _ => rfl)
  ext p
  rw [Finset.mem_filter, Finset.mem_filter,
    Heap.retained_iff_dominates hRoot]

/- The result of a calculation with the right sizes. -/
theorem exists_agrees
    (hRun : Uninterrupted h array first second)
    {c : Calculation (Option O)}
    (hCalculate : calculate h array first second = some c)
    (hSizes :
      ∀ o ∈ array.elements,
        c.retainedSize (some o) = some (retainedSum h o)) :
    ∃ result,
      executeOperation h array first second = some result ∧
        Agrees h array.elements result := by
  have hRetained :
      array.elements.mapM
          (fun o => c.retainedSize (some o)) =
        some (array.elements.map (retainedSum h)) :=
    mapM_eq_some_map hSizes
  have hShallow :
      array.elements.mapM
          (fun o => c.shallowSize (some o)) =
        some (array.elements.map h.size) := by
    apply mapM_eq_some_map
    intro o hMem
    exact shallowSize_eq (isInputArray h array)
      (untagged_start _) (fun _ _ => rfl) hRun hCalculate
      (List.mem_map.mpr ⟨o, hMem, rfl⟩)
  refine ⟨⟨array.elements.map h.size,
    array.elements.map (retainedSum h)⟩, ?_,
    Agrees.of_sums rfl rfl⟩
  simp only [executeOperation, hCalculate,
    constructResultObject, hRetained, hShallow,
    Option.bind_eq_bind, Option.bind_some]

theorem agrees_of_rooted
    (hRun : Uninterrupted h array first second)
    (hRoot : ∀ o ∈ array.elements, h.RootReachable o) :
    ∃ result,
      executeOperation h array first second = some result ∧
        Agrees h array.elements result := by
  have hRooted :
      ∀ s ∈ array.elements.map some,
        Rooted (array.heap h) none s := by
    intro s hMem
    rcases List.mem_map.mp hMem with ⟨o, hElement, hEq⟩
    rw [← hEq]
    exact (rooted_some_iff h array o).mpr (hRoot o hElement)
  rcases calculateRetainedSizes_spec (isInputArray h array)
      (untagged_start _) (fun _ _ => rfl) hRun hRooted with
    ⟨c, hCalculate, hSizes⟩
  apply exists_agrees hRun hCalculate
  intro o hMem
  have hSize :=
    (hSizes (some o) (List.mem_map.mpr ⟨o, hMem, rfl⟩)).1
  rw [sum_dominatedObjects,
    dominatedSize_eq_retainedSum (hRoot o hMem)] at hSize
  exact hSize

/- The calculation returns. -/
theorem calculate_isSome_iff
    (hRun : Uninterrupted h array first second) :
    (∃ c, calculate h array first second = some c) ↔
      ∀ d ∈ numbered h array.elements second, ∀ o, o ≠ d →
        h.Dominates d o →
          d ∈ counted h array.elements second := by
  unfold calculate
  rw [calculateRetainedSizes_isSome_iff
    (isInputArray h array) (untagged_start _)
    (fun _ _ => rfl) hRun]
  unfold DominatorsCounted
  rw [countedObjects_eq_map hRun, vertexObjects_eq_map hRun]
  constructor
  · intro hCounted d hMem o hNe hDominates
    have hSome :=
      hCounted (some d) (List.mem_map_of_mem hMem) (some o)
        ((mem_dominatedObjects_iff h array d _).mpr
          ⟨o, hDominates, rfl⟩)
        (fun hEq => hNe (Option.some.inj hEq))
    exact (List.mem_map_of_injective
      (Option.some_injective O)).mp hSome
  · intro hCounted v hMem p hMemP hNe
    rcases List.mem_map.mp hMem with ⟨d, hMemD, hEq⟩
    rw [← hEq] at hMemP hNe ⊢
    rcases (mem_dominatedObjects_iff h array d p).mp hMemP
      with ⟨o, hDominates, hEqP⟩
    rw [← hEqP] at hNe
    exact List.mem_map_of_mem
      (hCounted d hMemD o (fun hEqO => hNe (hEqO ▸ rfl))
        hDominates)

/- The size of a listed object that the roots reach. -/
theorem retainedSize_iff_counted
    (hRun : Uninterrupted h array first second)
    {c : Calculation (Option O)}
    (hCalculate : calculate h array first second = some c)
    {o : O}
    (hMem : o ∈ array.elements)
    (hRoot : h.RootReachable o) :
    c.retainedSize (some o) = some (retainedSum h o) ↔
      ∀ p, p ≠ o → h.Dominates o p →
        p ∈ counted h array.elements second := by
  have hEq :=
    retainedSize_eq_iff (isInputArray h array)
      (untagged_start _) (fun _ _ => rfl) hRun hCalculate
      (List.mem_map_of_mem hMem)
      ((rooted_some_iff h array o).mpr hRoot)
  rw [sum_dominatedObjects,
    dominatedSize_eq_retainedSum hRoot,
    countedObjects_eq_map hRun] at hEq
  rw [hEq]
  constructor
  · intro hCounted p hNe hDominates
    have hSome :=
      hCounted (some p)
        ((mem_dominatedObjects_iff h array o _).mpr
          ⟨p, hDominates, rfl⟩)
        (fun hEqP => hNe (Option.some.inj hEqP))
    exact (List.mem_map_of_injective
      (Option.some_injective O)).mp hSome
  · intro hCounted v hMemV hNe
    rcases (mem_dominatedObjects_iff h array o v).mp hMemV
      with ⟨p, hDominates, hEqV⟩
    rw [← hEqV] at hNe ⊢
    exact List.mem_map_of_mem
      (hCounted p (fun hEqP => hNe (hEqP ▸ rfl)) hDominates)

------------------------------------------------------------
-- Listed Objects That No Root Reaches
------------------------------------------------------------

omit [Fintype O] in
/- An object that no root reaches gets its own size. -/
theorem retainedSize_of_not_rooted
    (hRun : Uninterrupted h array first second)
    {c : Calculation (Option O)}
    (hCalculate : calculate h array first second = some c)
    {o : O}
    (hMem : o ∈ array.elements)
    (hNot : ¬ h.RootReachable o) :
    c.retainedSize (some o) = some (h.size o) := by
  rcases calculateRetainedSizes_eq (isInputArray h array)
      (untagged_start _) (fun _ _ => rfl) hRun with
    ⟨tag, info, g, hEq, hSizes, hGraph, hPos, hSize, _⟩
  have hBoth := hCalculate
  unfold calculate at hBoth
  rw [hEq] at hBoth
  rcases Option.map_eq_some_iff.mp hBoth with
    ⟨sizes, hResult, hC⟩
  have hPosO : 0 < tag (some o) :=
    hPos _ (List.mem_map.mpr ⟨o, hMem, rfl⟩)
  have hUnreached : ¬ g.Reachable (tag (some o)) := by
    intro hReach
    apply hNot
    apply (rooted_some_iff h array o).mp
    exact (hGraph.reachable_iff (isInputArray h array)
      hPosO).mp hReach
  have hRead :=
    calculate_unreached (Nat.le_succ g.order) hSizes hResult
      ⟨hPosO.le, hGraph.lt _⟩ hUnreached
  rw [← hC]
  change read sizes (tag (some o)) = _
  rw [hRead, sizeAt, hSize _ hPosO]
  rfl

omit [DecidableEq O] in
/- What else an object retains adds to its size. -/
theorem size_lt_retainedSum
    {o p : O}
    (hNe : p ≠ o)
    (hRetained : h.Retained (· = o) p) :
    h.size o < retainedSum h o := by
  classical
  have hSubset :
      ({o, p} : Finset O) ⊆
        Finset.univ.filter (h.Retained (· = o)) := by
    intro q hMem
    apply Finset.mem_filter.mpr
    refine ⟨Finset.mem_univ q, ?_⟩
    rcases Finset.mem_insert.mp hMem with hEq | hEq
    · rw [hEq]
      exact Heap.retained_of_mem rfl
    · rw [Finset.mem_singleton.mp hEq]
      exact hRetained
  have hPair :
      ∑ q ∈ ({o, p} : Finset O), h.size q =
        h.size o + h.size p :=
    Finset.sum_pair hNe.symm
  have hLe :
      ∑ q ∈ ({o, p} : Finset O), h.size q ≤
        retainedSum h o :=
    Finset.sum_le_sum_of_subset_of_nonneg hSubset
      (fun q _ _ => (h.size_pos q).le)
  rw [hPair] at hLe
  exact (lt_add_of_pos_right _ (h.size_pos p)).trans_le hLe

omit [DecidableEq O] in
/- An object that holds nothing else retains itself alone. -/
theorem retainedSum_of_unreached
    {o : O}
    (hNot : ¬ h.RootReachable o)
    (hUnreached :
      ∀ p, h.Refers o p → p ≠ o → h.RootReachable p) :
    retainedSum h o = h.size o := by
  classical
  have hBelow :
      ∀ p, h.Reachable o p → p = o ∨ h.RootReachable p := by
    intro p hPath
    induction hPath with
    | refl => exact Or.inl rfl
    | @tail a b _ hRefers ih =>
        by_cases hEq : b = o
        · exact Or.inl hEq
        · apply Or.inr
          rcases ih with hSelf | hRoot
          · rw [hSelf] at hRefers
            exact hUnreached b hRefers hEq
          · exact hRoot.reachable
              (Relation.ReflTransGen.single hRefers)
  have hSingle :
      Finset.univ.filter (h.Retained (· = o)) = {o} := by
    ext p
    rw [Finset.mem_filter, Finset.mem_singleton]
    constructor
    · rintro ⟨_, ⟨q, hEq, hPath⟩, hAvoid⟩
      rw [hEq] at hPath
      rcases hBelow p hPath with hSelf | hRoot
      · exact hSelf
      · exact absurd (hRoot.around hNot) hAvoid
    · intro hEq
      rw [hEq]
      exact ⟨Finset.mem_univ o, Heap.retained_of_mem rfl⟩
  unfold retainedSum
  rw [hSingle, Finset.sum_singleton]

/- A result that agrees comes from sizes that do. -/
theorem exists_calculate_of_agrees
    (hAgrees :
      ∃ result,
        executeOperation h array first second =
            some result ∧
          Agrees h array.elements result) :
    ∃ c, calculate h array first second = some c ∧
      ∀ o ∈ array.elements,
        c.retainedSize (some o) =
          some (retainedSum h o) := by
  rcases hAgrees with ⟨result, hResult, hAgrees⟩
  rcases Option.bind_eq_some_iff.mp hResult with
    ⟨c, hCalculate, hConstruct⟩
  refine ⟨c, hCalculate, ?_⟩
  unfold constructResultObject at hConstruct
  rcases Option.bind_eq_some_iff.mp hConstruct with
    ⟨sizes, hSizes, hRest⟩
  rcases Option.bind_eq_some_iff.mp hRest with
    ⟨shallowSizes, _, hEq⟩
  have hSums : sizes = array.elements.map (retainedSum h) := by
    rw [← hAgrees.retained, ← Option.some.inj hEq]
  have hMap := map_eq_of_mapM hSizes
  rw [hSums, List.map_map] at hMap
  exact fun o hMem => List.map_inj_left.mp hMap o hMem

/- The sizes agree exactly if the counters suffice. -/
theorem agrees_iff
    (hRun : Uninterrupted h array first second) :
    (∃ result,
        executeOperation h array first second =
            some result ∧
          Agrees h array.elements result) ↔
      CountersSuffice h array.elements second := by
  constructor
  · intro hAgrees
    rcases exists_calculate_of_agrees hAgrees with
      ⟨c, hCalculate, hSizes⟩
    refine ⟨(calculate_isSome_iff hRun).mp ⟨c, hCalculate⟩,
      ?_, ?_⟩
    · intro o hMem p hNe hDominates
      have hRoot : h.RootReachable o := by
        by_contra hNot
        exact hDominates.2 (hDominates.1.around hNot)
      exact (retainedSize_iff_counted hRun hCalculate hMem
        hRoot).mp (hSizes o hMem) p hNe hDominates
    · intro o hMem hNot p hRefers hNe
      by_contra hNotP
      have hRetained : h.Retained (· = o) p := by
        refine ⟨⟨o, rfl,
          Relation.ReflTransGen.single hRefers⟩, ?_⟩
        intro hReached
        exact hNotP
          (Heap.ReachedAvoiding.mono
            (fun _ hFalse => hFalse.elim) hReached)
      have hOwn := hSizes o hMem
      rw [retainedSize_of_not_rooted hRun hCalculate hMem
        hNot] at hOwn
      exact (size_lt_retainedSum hNe hRetained).ne
        (Option.some.inj hOwn)
  · intro hSuffice
    rcases (calculate_isSome_iff hRun).mpr
        hSuffice.dominators with ⟨c, hCalculate⟩
    apply exists_agrees hRun hCalculate
    intro o hMem
    by_cases hRoot : h.RootReachable o
    · exact (retainedSize_iff_counted hRun hCalculate hMem
        hRoot).mpr (hSuffice.dominated o hMem)
    · rw [retainedSize_of_not_rooted hRun hCalculate hMem
        hRoot,
        retainedSum_of_unreached hRoot
          (hSuffice.unreached o hMem hRoot)]

/-
  The sizes disagree when a listed object that no root
  reaches refers to another object that no root reaches.
-/
theorem not_agrees
    (hRun : Uninterrupted h array first second)
    {o p : O}
    (hMem : o ∈ array.elements)
    (hRoot : ¬ h.RootReachable o)
    (hRefers : h.Refers o p)
    (hNe : p ≠ o)
    (hRootP : ¬ h.RootReachable p) :
    ¬ ∃ result,
      executeOperation h array first second = some result ∧
        Agrees h array.elements result := by
  intro hAgrees
  have hSuffice := (agrees_iff hRun).mp hAgrees
  exact hRootP
    (hSuffice.unreached o hMem hRoot p hRefers hNe)

end Run

/-
  Every uninterrupted run agrees with the action for a single
  object if the roots reach all listed objects.  It does not
  if a listed object that they do not reach refers to another
  such object.  In general it agrees exactly if the counters
  suffice.
-/
theorem retainedSizes_agree
    (h : Heap O)
    (array : InputArray O) :
    (∃ first second, Uninterrupted h array first second) ∧
      ∀ first second, Uninterrupted h array first second →
        ((∀ o ∈ array.elements, h.RootReachable o) →
          ∃ result,
            executeOperation h array first second =
                some result ∧
              Agrees h array.elements result) ∧
        ((∃ o ∈ array.elements, ¬ h.RootReachable o ∧
            ∃ p, h.Refers o p ∧ p ≠ o ∧
              ¬ h.RootReachable p) →
          ¬ ∃ result,
            executeOperation h array first second =
                some result ∧
              Agrees h array.elements result) ∧
        ((∃ result,
            executeOperation h array first second =
                some result ∧
              Agrees h array.elements result) ↔
          CountersSuffice h array.elements second) := by
  refine ⟨exists_uninterrupted h array, ?_⟩
  intro first second hRun
  refine ⟨agrees_of_rooted hRun, ?_, agrees_iff hRun⟩
  rintro ⟨o, hMem, hRoot, p, hRefers, hNe, hRootP⟩
  exact not_agrees hRun hMem hRoot hRefers hNe hRootP

/- An object that no root reaches, and one that it holds. -/
def unreachedPair : Heap (Fin 2) where
  roots := []
  references := fun o =>
    if o = 0 then [⟨.field, .index 0, 1⟩] else []
  size := fun _ => 16
  classOf := fun _ => 1
  roots_isRoot := by decide
  references_isHeld := by decide
  size_pos := fun _ => sixteen_pos

def pairArray : InputArray (Fin 2) where
  elements := [0]
  size := 24
  classOf := 1
  roots := [⟨.jniLocal, .none, none⟩]
  size_pos := by decide
  roots_isRoot := by decide
  roots_ignored := by decide

/- The result is 16, and `size` computes 32. -/
theorem not_retainedSizes_agree :
    ¬ ∀ (h : Heap (Fin 2)) (array : InputArray (Fin 2))
        (first second : List (Report (Option (Fin 2)))),
      Uninterrupted h array first second →
        ∃ result,
          executeOperation h array first second =
              some result ∧
            Agrees h array.elements result := by
  intro hAll
  have hRun :
      Uninterrupted unreachedPair pairArray
        [⟨none, ⟨.jniLocal, .none, none⟩⟩]
        [⟨some none, ⟨.arrayElement, .index 0, some 0⟩⟩,
          ⟨some (some 0), ⟨.field, .index 0, some 1⟩⟩] :=
    ⟨by decide, by decide⟩
  have hSize :
      RetainedSizeAndHeldObjects.Uninterrupted unreachedPair
        0 [] [⟨some 0, ⟨.field, .index 0, 1⟩⟩] [0, 1] :=
    ⟨by decide, by decide, by decide⟩
  rcases hAll _ _ _ _ hRun with ⟨result, hResult, hAgrees⟩
  have hGet := hAgrees.size 0 0 rfl _ _ _ hSize
  have hValue :
      executeOperation unreachedPair pairArray
          [⟨none, ⟨.jniLocal, .none, none⟩⟩]
          [⟨some none, ⟨.arrayElement, .index 0, some 0⟩⟩,
            ⟨some (some 0), ⟨.field, .index 0, some 1⟩⟩] =
        some ⟨[16], [16]⟩ := by
    decide
  rw [hResult] at hValue
  rw [Option.some.inj hValue] at hGet
  exact absurd hGet (by decide)

end RetainedSizesViaDominatorTreeAction

end ViaDominatorTree

end MemoryAgent
