import MemoryAgent.Sizes.DominatorTree.CountedLeaves
import MemoryAgent.Sizes.ViaDominatorTree.Numbering

/-
  The retained sizes of start objects some of which the
  roots may not reach.  There are as many counters as
  vertices that are reached, so that only the first objects
  have one.

  Key definitions include:
    * `ViaDominatorTree.countedObjects`
    * `ViaDominatorTree.DominatorsCounted`

  Main results:
    * `ViaDominatorTree.MasterGraph.card_reachedVertices`
    * `ViaDominatorTree.MasterGraph.idomsBelowCount_iff`
    * `ViaDominatorTree.calculateRetainedSizes_isSome_iff`
    * `ViaDominatorTree.retainedSize_eq_iff`
-/

------------------------------------------------------------
-- Objects with Counters
------------------------------------------------------------

namespace MemoryAgent

namespace ViaDominatorTree

open StdVector DominatorTree Dominance

variable {N : Type}

/-
  The first of the objects with vertices: as many as the
  roots reach of them.
-/
open scoped Classical in
noncomputable def countedObjects
    (h : Heap N)
    (array : N)
    (vertices : List N) : List N :=
  vertices.take
    (vertices.countP (fun o => Rooted h array o))

/- Whatever dominates another object has a counter. -/
def DominatorsCounted
    [Fintype N]
    (h : Heap N)
    (array : N)
    (vertices : List N) : Prop :=
  ∀ d ∈ vertices, ∀ p ∈ dominatedObjects h array d, p ≠ d →
    d ∈ countedObjects h array vertices

section Graph

variable [DecidableEq N]
variable {h : Heap N}
variable {array : N}
variable {objects vertices : List N}
variable {tag : N → jlong}
variable {info : HeapDumpInfo}
variable {g : FlowGraph}
variable {o x : N}

/- One counter is that of the master node. -/
theorem MasterGraph.card_reachedVertices
    (hArray : IsInputArray h array objects)
    (hGraph : MasterGraph h array objects tag g)
    (hNumbered : NumberedBy tag info vertices)
    (hNodup : vertices.Nodup) :
    (reachedVertices g).card =
      (countedObjects h array vertices).length + 1 := by
  classical
  have hPos :
      ∀ o ∈ vertices, 0 < tag o :=
    fun o hMem => (hNumbered.mem_iff o).mp hMem
  have hImage :
      reachedVertices g =
        insert 0 ((vertices.filter
          (fun o => Rooted h array o)).toFinset.image
            tag) := by
    ext v
    rw [mem_reachedVertices, Finset.mem_insert,
      Finset.mem_image]
    constructor
    · intro hReach
      by_cases hRoot : v = 0
      · exact Or.inl hRoot
      · have hRange := inRange_of_reachable hReach
        have hPosV : 0 < v :=
          lt_of_le_of_ne hRange.1 (Ne.symm hRoot)
        rcases hGraph.surj v hPosV hRange.2 with ⟨o, hTag⟩
        rw [← hTag] at hPosV hReach
        refine Or.inr ⟨o, ?_, hTag⟩
        rw [List.mem_toFinset, List.mem_filter,
          hNumbered.mem_iff o]
        exact ⟨hPosV, decide_eq_true
          ((hGraph.reachable_iff hArray hPosV).mp hReach)⟩
    · rintro (hRoot | ⟨o, hMem, hTag⟩)
      · rw [hRoot]
        exact FlowGraph.Reachable.root
      · rw [List.mem_toFinset, List.mem_filter] at hMem
        rw [← hTag]
        exact hGraph.rooted_reachable
          (of_decide_eq_true hMem.2) (hPos o hMem.1)
  have hMaster :
      (0 : jlong) ∉ (vertices.filter
        (fun o => Rooted h array o)).toFinset.image tag := by
    intro hMem
    rcases Finset.mem_image.mp hMem with ⟨o, hO, hTag⟩
    rw [List.mem_toFinset, List.mem_filter] at hO
    exact (hPos o hO.1).ne' hTag
  have hInj :
      Set.InjOn tag (vertices.filter
        (fun o => Rooted h array o)).toFinset := by
    intro o hO p _ hEq
    have hMem : o ∈ vertices :=
      List.mem_of_mem_filter
        (List.mem_toFinset.mp (Finset.mem_coe.mp hO))
    exact hGraph.inj o p (hPos o hMem) hEq
  have hLe :
      vertices.countP (fun o => Rooted h array o) ≤
        vertices.length :=
    List.countP_le_length
  rw [hImage, Finset.card_insert_of_notMem hMaster,
    Finset.card_image_of_injOn hInj,
    List.toFinset_card_of_nodup (hNodup.filter _),
    ← List.countP_eq_length_filter]
  unfold countedObjects
  rw [List.length_take, min_eq_left hLe]

theorem MasterGraph.tag_lt_card_iff
    (hArray : IsInputArray h array objects)
    (hGraph : MasterGraph h array objects tag g)
    (hNumbered : NumberedBy tag info vertices)
    (hNodup : vertices.Nodup)
    (hMem : o ∈ vertices) :
    tag o < (reachedVertices g).card ↔
      o ∈ countedObjects h array vertices := by
  classical
  have hLe :
      vertices.countP (fun o => Rooted h array o) ≤
        vertices.length :=
    List.countP_le_length
  rw [hGraph.card_reachedVertices hArray hNumbered hNodup,
    hNumbered.number o hMem]
  unfold countedObjects
  rw [List.mem_take_iff_idxOf_lt hMem, List.length_take,
    min_eq_left hLe]
  exact_mod_cast Nat.succ_lt_succ_iff

omit [DecidableEq N] in
/- The reached vertices that the vertex of `x` dominates. -/
theorem MasterGraph.reachedDominated_eq_image
    [Fintype N]
    (hArray : IsInputArray h array objects)
    (hGraph : MasterGraph h array objects tag g)
    (hPosX : 0 < tag x) :
    reachedDominated g (tag x) =
      (dominatedObjects h array x).image tag := by
  ext w
  rw [mem_reachedDominated, Finset.mem_image]
  constructor
  · rintro ⟨hReach, hDom⟩
    have hNe : w ≠ 0 := by
      intro hEq
      rw [hEq] at hDom
      exact hPosX.ne' (dominates_root_iff.mp hDom)
    have hRange := inRange_of_reachable hReach
    have hPosW : 0 < w :=
      lt_of_le_of_ne hRange.1 (Ne.symm hNe)
    rcases hGraph.surj w hPosW hRange.2 with ⟨p, hTag⟩
    rw [← hTag] at hPosW hDom hReach
    exact ⟨p, mem_dominatedObjects.mpr
      ⟨(hGraph.reachable_iff hArray hPosW).mp hReach,
        (hGraph.dominates_iff hArray hPosX hPosW).mp hDom⟩,
      hTag⟩
  · rintro ⟨p, hMem, hTag⟩
    have hPosP :=
      hGraph.pos_of_mem_dominatedObjects hPosX hMem
    rcases mem_dominatedObjects.mp hMem with
      ⟨hRooted, hNot⟩
    rw [← hTag]
    exact ⟨hGraph.rooted_reachable hRooted hPosP,
      (hGraph.dominates_iff hArray hPosX hPosP).mpr hNot⟩

/- The dominators with counters are those of objects. -/
theorem MasterGraph.idomsBelowCount_iff
    [Fintype N]
    (hArray : IsInputArray h array objects)
    (hGraph : MasterGraph h array objects tag g)
    (hNumbered : NumberedBy tag info vertices)
    (hNodup : vertices.Nodup) :
    IdomsBelowCount g ↔
      DominatorsCounted h array vertices := by
  rw [idomsBelowCount_iff_dominates]
  constructor
  · intro hBelow d hMemD p hMemP hNe
    have hPosD := (hNumbered.mem_iff d).mp hMemD
    have hDominated :
        tag p ∈ reachedDominated g (tag d) := by
      rw [hGraph.reachedDominated_eq_image hArray hPosD]
      exact Finset.mem_image_of_mem tag hMemP
    rcases mem_reachedDominated.mp hDominated with
      ⟨hReach, hDom⟩
    apply (hGraph.tag_lt_card_iff hArray hNumbered hNodup
      hMemD).mp
    apply hBelow (tag d) (tag p) hReach hDom
    intro hEq
    have hPosP :=
      hGraph.pos_of_mem_dominatedObjects hPosD hMemP
    exact hNe (hGraph.inj p d hPosP hEq)
  · intro hCounted d w hReach hDom hNe
    by_cases hRoot : d = 0
    · rw [hRoot, hGraph.card_reachedVertices hArray
        hNumbered hNodup]
      exact Int.natCast_pos.mpr (Nat.succ_pos _)
    · have hRange :=
        inRange_of_reachable (reachable_of_dominates hReach
          hDom)
      have hPosD : 0 < d :=
        lt_of_le_of_ne hRange.1 (Ne.symm hRoot)
      rcases hGraph.surj d hPosD hRange.2 with ⟨x, hTag⟩
      rw [← hTag] at hPosD hDom hNe ⊢
      have hMemX := (hNumbered.mem_iff x).mpr hPosD
      have hDominated : w ∈ reachedDominated g (tag x) :=
        mem_reachedDominated.mpr ⟨hReach, hDom⟩
      rw [hGraph.reachedDominated_eq_image hArray hPosD]
        at hDominated
      rcases Finset.mem_image.mp hDominated with
        ⟨p, hMemP, hTagP⟩
      apply (hGraph.tag_lt_card_iff hArray hNumbered hNodup
        hMemX).mpr
      apply hCounted x hMemX p hMemP
      intro hEq
      rw [hEq] at hTagP
      exact hNe hTagP.symm

end Graph

------------------------------------------------------------
-- Retained Sizes
------------------------------------------------------------

section Sizes

variable [DecidableEq N]
variable [Fintype N]
variable {h : Heap N}
variable {array : N}
variable {objects : List N}
variable {tag : N → jlong}
variable {first second : List (Report N)}
variable (hArray : IsInputArray h array objects)
variable
  (hTag :
    ∀ o ∈ objects, tag o = 0 ∨ tag o = objectOfClassTag)
variable (hOthers : ∀ o, o ∉ objects → tag o = 0)
variable
  (hTraversed : Traversed h array objects tag first second)

include hArray hTag hOthers hTraversed

/- The calculation needs a counter for every dominator. -/
theorem calculateRetainedSizes_isSome_iff :
    (∃ c,
        calculateRetainedSizes h array objects tag first
          second = some c) ↔
      DominatorsCounted h array
        (vertexObjects h array objects second) := by
  rcases calculateRetainedSizes_eq hArray hTag hOthers
      hTraversed with
    ⟨tag', info, g, hEq, hSizes, hGraph, _, _, hRun⟩
  rcases (hTraversed.numbered hArray hTag hOthers).1 with
    ⟨_, hNumbered⟩
  rw [hRun] at hNumbered
  rw [← hGraph.idomsBelowCount_iff hArray hNumbered
      (nodup_eraseDups _),
    ← calculate_isSome_iff info.sizes hSizes
      (Nat.lt_succ_self g.order), hEq]
  constructor
  · rintro ⟨c, hSome⟩
    rcases Option.map_eq_some_iff.mp hSome with
      ⟨sizes, hResult, _⟩
    exact ⟨sizes, hResult⟩
  · rintro ⟨sizes, hResult⟩
    rw [hResult]
    exact ⟨_, rfl⟩

omit [Fintype N] in
theorem shallowSize_eq
    {c : Calculation N}
    (hCalculate :
      calculateRetainedSizes h array objects tag first
        second = some c)
    {o : N}
    (hMem : o ∈ objects) :
    c.shallowSize o = some (h.size o) := by
  rcases calculateRetainedSizes_eq hArray hTag hOthers
      hTraversed with
    ⟨tag', info, g, hEq, _, _, hPos, hSize, _⟩
  rw [hEq] at hCalculate
  rcases Option.map_eq_some_iff.mp hCalculate with
    ⟨sizes, _, hC⟩
  rw [← hC]
  exact hSize o (hPos o hMem)

/-
  The result for a start object that the roots reach is the
  size of what it dominates exactly if whatever else it
  dominates has a counter, too.
-/
theorem retainedSize_eq_iff
    {c : Calculation N}
    (hCalculate :
      calculateRetainedSizes h array objects tag first
        second = some c)
    {o : N}
    (hMem : o ∈ objects)
    (hRooted : Rooted h array o) :
    c.retainedSize o =
        some (∑ p ∈ dominatedObjects h array o, h.size p) ↔
      ∀ p ∈ dominatedObjects h array o, p ≠ o →
        p ∈ countedObjects h array
          (vertexObjects h array objects second) := by
  have hCounted :=
    (calculateRetainedSizes_isSome_iff hArray hTag hOthers
      hTraversed).mp ⟨c, hCalculate⟩
  rcases calculateRetainedSizes_eq hArray hTag hOthers
      hTraversed with
    ⟨tag', info, g, hEq, hSizes, hGraph, hPos, hSize, hRun⟩
  rcases (hTraversed.numbered hArray hTag hOthers).1 with
    ⟨_, hNumbered⟩
  rw [hRun] at hNumbered
  have hNodup :
      (vertexObjects h array objects second).Nodup :=
    nodup_eraseDups _
  have hBelow :=
    (hGraph.idomsBelowCount_iff hArray hNumbered
      hNodup).mpr hCounted
  rcases exists_calculate_of_counted info.sizes hSizes
      hBelow (Nat.lt_succ_self g.order) with
    ⟨result, hResult, hSum⟩
  have hPosSizes :
      ∀ w, w ≠ 0 → InRange g.order w →
        0 < sizeAt info.sizes w := by
    intro w hNe hRange
    have hPosW : 0 < w :=
      lt_of_le_of_ne hRange.1 (Ne.symm hNe)
    rcases hGraph.surj w hPosW hRange.2 with ⟨p, hTagP⟩
    rw [← hTagP] at hPosW ⊢
    rw [sizeAt, hSize p hPosW]
    exact h.size_pos p
  have hPosO := hPos o hMem
  have hTotal :=
    hSum hPosSizes (tag' o) hPosO.ne'
      (hGraph.rooted_reachable hRooted hPosO)
  have hRead :
      c.retainedSize o = some (result (tag' o)) := by
    rw [hEq, hResult] at hCalculate
    rw [← Option.some.inj hCalculate]
    exact read_tabulate _ ⟨hPosO.le, hGraph.lt o⟩
  rw [hRead, Option.some_inj,
    ← hGraph.sum_image_dominatedObjects hPosO hSize,
    ← hGraph.reachedDominated_eq_image hArray hPosO, hTotal,
    hGraph.reachedDominated_eq_image hArray hPosO]
  have hVertex :
      ∀ p ∈ dominatedObjects h array o,
        p ∈ vertexObjects h array objects second :=
    fun p hMemP =>
      (hNumbered.mem_iff p).mpr
        (hGraph.pos_of_mem_dominatedObjects hPosO hMemP)
  constructor
  · intro hLow p hMemP hNe
    apply (hGraph.tag_lt_card_iff hArray hNumbered hNodup
      (hVertex p hMemP)).mp
    apply hLow _ (Finset.mem_image_of_mem tag' hMemP)
    intro hEqTag
    have hPosP :=
      hGraph.pos_of_mem_dominatedObjects hPosO hMemP
    exact hNe (hGraph.inj p o hPosP hEqTag)
  · intro hLow w hMemW hNe
    rcases Finset.mem_image.mp hMemW with ⟨p, hMemP, hTagP⟩
    rw [← hTagP] at hNe ⊢
    apply (hGraph.tag_lt_card_iff hArray hNumbered hNodup
      (hVertex p hMemP)).mpr
    exact hLow p hMemP (fun hEqP => hNe (congrArg tag' hEqP))

end Sizes

end ViaDominatorTree

end MemoryAgent
