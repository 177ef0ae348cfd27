import Mathlib.Data.Fintype.Option
import MemoryAgent.Sizes.DominatorTree.Correctness
import MemoryAgent.Sizes.ViaDominatorTree.SecondTraversal

/-
  The retained sizes of start objects that the roots reach.
  The vertices that the vertex of a start object dominates
  are the objects that the start object dominates.

  Key definitions include:
    * `ViaDominatorTree.MasterGraph`
    * `ViaDominatorTree.dominatedObjects`
    * `ViaDominatorTree.dominatedSize`

  Main results:
    * `ViaDominatorTree.setUpNeighbours_spec`
    * `ViaDominatorTree.MasterGraph.avoids_of_reached`
    * `ViaDominatorTree.MasterGraph.reached_of_avoids`
    * `ViaDominatorTree.MasterGraph.dominated_eq_image`
    * `ViaDominatorTree.calculateRetainedSizes_eq`
    * `ViaDominatorTree.calculateRetainedSizes_spec`
    * `ViaDominatorTree.sum_dominatedObjects`
-/

------------------------------------------------------------
-- The Master Node
------------------------------------------------------------

namespace MemoryAgent

namespace ViaDominatorTree

open StdVector DominatorTree Dominance

/- The loop adds the visited ones of some start tags. -/
theorem setUpNeighbours_foldlM
    (ks : jlongs)
    {info : HeapDumpInfo}
    {ns : jlongs}
    (hRange :
      ∀ k ∈ ks,
        InRange info.wasVisitedDuringFirstTraversal.length k)
    (hMaster : read info.graph 0 = some ns) :
    ∃ graph ms,
      ks.foldlM HeapDumpInfo.setUpNeighbour info =
          some { info with graph := graph } ∧
        graph.length = info.graph.length ∧
        (∀ u, u ≠ 0 → read graph u = read info.graph u) ∧
        read graph 0 = some ms ∧
        ∀ k, k ∈ ms ↔
          k ∈ ns ∨
            (k ∈ ks ∧
              read info.wasVisitedDuringFirstTraversal k =
                some true) := by
  induction ks generalizing info ns with
  | nil =>
      refine ⟨info.graph, ns, rfl, rfl, fun _ _ => rfl,
        hMaster, ?_⟩
      simp
  | cons k ks ih =>
      rcases exists_read (hRange k List.mem_cons_self) with
        ⟨wasVisited, hVisited⟩
      have hZero : InRange info.graph.length 0 :=
        inRange_of_read hMaster
      have hRest :
          ∀ j ∈ ks,
            InRange info.wasVisitedDuringFirstTraversal.length
              j :=
        fun j hMem => hRange j (List.mem_cons_of_mem k hMem)
      cases wasVisited with
      | false =>
          have hStep :
              info.setUpNeighbour k = some info := by
            simp [HeapDumpInfo.setUpNeighbour, hVisited]
          rcases ih hRest hMaster with
            ⟨graph, ms, hFold, hLength, hKeep, hRead, hMem⟩
          refine ⟨graph, ms, ?_, hLength, hKeep, hRead, ?_⟩
          · rw [List.foldlM_cons, hStep]
            exact hFold
          · intro j
            rw [hMem j, List.mem_cons]
            apply or_congr_right
            constructor
            · rintro ⟨hJ, hTrue⟩
              exact ⟨Or.inr hJ, hTrue⟩
            · rintro ⟨hEq | hJ, hTrue⟩
              · rw [hEq, hVisited] at hTrue
                cases hTrue
              · exact ⟨hJ, hTrue⟩
      | true =>
          let graph' : graph_t :=
            info.graph.set (0 : Int).toNat (ns ++ [k])
          let info' : HeapDumpInfo :=
            { info with graph := graph' }
          have hStep :
              info.setUpNeighbour k = some info' := by
            have hWrite :
                write info.graph 0 (ns ++ [k]) =
                  some graph' := if_pos hZero
            simp [HeapDumpInfo.setUpNeighbour, hVisited,
              hMaster, hWrite, info']
          have hMaster' :
              read info'.graph 0 = some (ns ++ [k]) := by
            change read (info.graph.set _ _) 0 = _
            rw [read_set _ _ hZero, if_pos rfl]
          have hRest' :
              ∀ j ∈ ks,
                InRange
                  info'.wasVisitedDuringFirstTraversal.length
                  j :=
            hRest
          rcases ih hRest' hMaster' with
            ⟨graph, ms, hFold, hLength, hKeep, hRead, hMem⟩
          refine ⟨graph, ms, ?_, ?_, ?_, hRead, ?_⟩
          · rw [List.foldlM_cons, hStep]
            exact hFold
          · rw [hLength]
            exact List.length_set
          · intro u hNe
            rw [hKeep u hNe]
            change read (info.graph.set _ _) u = _
            rw [read_set _ _ hZero, if_neg hNe]
          · intro j
            rw [hMem j, List.mem_append, List.mem_singleton,
              List.mem_cons, or_assoc]
            apply or_congr_right
            constructor
            · rintro (hEq | ⟨hJ, hTrue⟩)
              · rw [hEq]
                exact ⟨Or.inl rfl, hVisited⟩
              · exact ⟨Or.inr hJ, hTrue⟩
            · rintro ⟨hEq | hJ, hTrue⟩
              · exact Or.inl hEq
              · exact Or.inr ⟨hJ, hTrue⟩

/- The edges out of the master node. -/
theorem setUpNeighbours_spec
    {info : HeapDumpInfo}
    {last : Nat}
    (hLast : info.lastStartTag + 1 = (last : jlong))
    (hLength :
      info.wasVisitedDuringFirstTraversal.length = last)
    (hMaster : read info.graph 0 = some []) :
    ∃ graph ms,
      info.setUpNeighboursForMasterNode =
          some { info with graph := graph } ∧
        graph.length = info.graph.length ∧
        (∀ u, u ≠ 0 → read graph u = read info.graph u) ∧
        read graph 0 = some ms ∧
        ∀ k, k ∈ ms ↔
          k ≠ 0 ∧
            read info.wasVisitedDuringFirstTraversal k =
              some true := by
  have hRange :
      ∀ k ∈ fromOne (info.lastStartTag + 1),
        InRange info.wasVisitedDuringFirstTraversal.length
          k := by
    intro k hMem
    rw [hLast, mem_fromOne] at hMem
    rw [hLength]
    exact hMem.2
  rcases setUpNeighbours_foldlM _ hRange hMaster with
    ⟨graph, ms, hFold, hLen, hKeep, hRead, hMem⟩
  refine ⟨graph, ms, hFold, hLen, hKeep, hRead, ?_⟩
  intro k
  rw [hMem k, hLast, mem_fromOne]
  constructor
  · rintro (hNone | ⟨⟨hNe, _⟩, hTrue⟩)
    · exact absurd hNone List.not_mem_nil
    · exact ⟨hNe, hTrue⟩
  · rintro ⟨hNe, hTrue⟩
    refine Or.inr ⟨⟨hNe, ?_⟩, hTrue⟩
    have hRangeK := inRange_of_read hTrue
    rw [hLength] at hRangeK
    exact hRangeK

------------------------------------------------------------
-- The Graph
------------------------------------------------------------

variable {N : Type}

/-
  The finished graph: held objects are the vertices above 0,
  the references among them are its edges, and vertex 0
  leads to the start objects that are hit.
-/
structure MasterGraph
    (h : Heap N)
    (array : N)
    (objects : List N)
    (tag : N → jlong)
    (g : FlowGraph) : Prop where
  lt : ∀ o, tag o < g.order
  inj : ∀ o p, 0 < tag o → tag o = tag p → o = p
  surj :
    ∀ k : jlong, 0 < k → k < g.order → ∃ o, tag o = k
  held_iff : ∀ o, 0 < tag o ↔ Held h array objects o
  edge :
    ∀ a b, 0 < tag a → 0 < tag b →
      (g.Edge (tag a) (tag b) ↔ h.Refers a b)
  edge_target : ∀ u v, g.Edge u v → 0 < v
  master :
    ∀ o, 0 < tag o →
      (g.Edge 0 (tag o) ↔
        o ∈ objects ∧ Hit h array objects o)

/- The roots reach the object, but not around the array. -/
def Rooted
    (h : Heap N)
    (array : N) : N → Prop :=
  h.ReachedAvoiding (· = array)

/- The object reached from the roots around `x`. -/
def ReachedAround
    (h : Heap N)
    (array x : N) : N → Prop :=
  h.ReachedAvoiding (fun o => o = x ∨ o = array)

section Paths

variable {h : Heap N}
variable {array : N}
variable {objects : List N}
variable {tag : N → jlong}
variable {g : FlowGraph}
variable {o p x : N}

/- A rooted object is outside or below a start object. -/
theorem Rooted.cases
    (hRooted : Rooted h array o) :
    Outside h array objects o ∨
      ∃ s ∈ objects, h.Reachable s o := by
  induction hRooted with
  | @root r hMem hKind hAvoid =>
      by_cases hStart : r.referee ∈ objects
      · exact Or.inr
          ⟨r.referee, hStart, Relation.ReflTransGen.refl⟩
      · exact Or.inl
          (Heap.ReachedAvoiding.root hMem hKind
            (not_or.mpr ⟨hStart, hAvoid⟩))
  | @step a b _ hRefers hAvoid ih =>
      by_cases hStart : b ∈ objects
      · exact Or.inr
          ⟨b, hStart, Relation.ReflTransGen.refl⟩
      · rcases ih with hOutside | ⟨s, hS, hPath⟩
        · exact Or.inl
            (Heap.ReachedAvoiding.step hOutside hRefers
              (not_or.mpr ⟨hStart, hAvoid⟩))
        · exact Or.inr ⟨s, hS, hPath.tail hRefers⟩

theorem Rooted.held
    (hRooted : Rooted h array o)
    (hNot : ¬ Outside h array objects o) :
    Held h array objects o :=
  ⟨hRooted.cases.resolve_left hNot, hNot⟩

theorem Rooted.reachable
    (hArray : IsInputArray h array objects)
    (hRooted : Rooted h array o)
    (hPath : h.Reachable o p) :
    Rooted h array p := by
  induction hPath with
  | refl => exact hRooted
  | tail _ hRefers ih =>
      exact Heap.ReachedAvoiding.step ih hRefers
        (hArray.unreferenced _ _ hRefers)

/- What lies outside is reached around a held object. -/
theorem Outside.around
    (hOutside : Outside h array objects o)
    (hNot : ¬ Outside h array objects x) :
    ReachedAround h array x o :=
  Heap.ReachedAvoiding.mono (fun _ => Or.imp_right Or.inr)
    (Heap.ReachedAvoiding.around hOutside hNot)

theorem FlowGraph.reachable_of_avoids
    {d v : jlong}
    (hAvoids : Avoids g.Edge 0 d v) :
    g.Reachable v := by
  induction hAvoids with
  | root _ => exact FlowGraph.Reachable.root
  | step _ hEdge _ ih =>
      exact FlowGraph.Reachable.step ih hEdge

namespace MasterGraph

/- A hit vertex is a start object below the master node. -/
theorem edge_of_hit
    (hGraph : MasterGraph h array objects tag g)
    (hPos : 0 < tag o)
    (hNe : o ≠ array)
    (hHit : Hit h array objects o) :
    g.Edge 0 (tag o) := by
  apply (hGraph.master o hPos).mpr
  refine ⟨?_, hHit⟩
  by_contra hNot
  exact ((hGraph.held_iff o).mp hPos).2
    (hHit.outside hNot hNe)

/-
  A path from the roots to a vertex gives a path in the
  graph: it starts anew whenever the path comes from an
  object without vertex.  `X` is avoided, and `d` is the
  vertex of no other object.
-/
theorem avoids_of_reached
    (hGraph : MasterGraph h array objects tag g)
    {X : N → Prop}
    {d : jlong}
    (hRoot : 0 ≠ d)
    (hAvoid : ∀ p, 0 < tag p → ¬ X p → tag p ≠ d)
    (hReached :
      h.ReachedAvoiding (fun p => X p ∨ p = array) o)
    (hPos : 0 < tag o) :
    Avoids g.Edge 0 d (tag o) := by
  have hMaster : Avoids g.Edge 0 d 0 := Avoids.root hRoot
  induction hReached with
  | @root r hMem hKind hX =>
      rcases not_or.mp hX with ⟨hNotX, hNe⟩
      exact Avoids.step hMaster
        (hGraph.edge_of_hit hPos hNe
          (Or.inl ⟨r, hMem, hKind, rfl⟩))
        (hAvoid _ hPos hNotX)
  | @step a b hReachedA hRefers hX ih =>
      rcases not_or.mp hX with ⟨hNotX, hNe⟩
      by_cases hPosA : 0 < tag a
      · exact Avoids.step (ih hPosA)
          ((hGraph.edge a b hPosA hPos).mpr hRefers)
          (hAvoid b hPos hNotX)
      · have hRooted : Rooted h array a :=
          Heap.ReachedAvoiding.mono
            (fun _ hEq => Or.inr hEq) hReachedA
        have hOutside : Outside h array objects a := by
          by_contra hNot
          exact hPosA
            ((hGraph.held_iff a).mpr (hRooted.held hNot))
        exact Avoids.step hMaster
          (hGraph.edge_of_hit hPos hNe
            (Or.inr ⟨a, hOutside, hRefers⟩))
          (hAvoid b hPos hNotX)

/- A path in the graph gives a path from the roots. -/
theorem reached_of_avoids
    (hArray : IsInputArray h array objects)
    (hGraph : MasterGraph h array objects tag g)
    (hPosX : 0 < tag x)
    {v : jlong}
    (hAvoids : Avoids g.Edge 0 (tag x) v)
    (hPos : 0 < tag o)
    (hEq : tag o = v) :
    ReachedAround h array x o := by
  induction hAvoids generalizing o with
  | root _ =>
      rw [hEq] at hPos
      exact absurd hPos (lt_irrefl _)
  | @step u v hPrefix hEdge hNe ih =>
      have hNeX : o ≠ x := by
        intro hEqX
        rw [← hEq, hEqX] at hNe
        exact hNe rfl
      have hNeArray : o ≠ array := by
        intro hEqArray
        have hHeld := (hGraph.held_iff o).mp hPos
        rcases hHeld.1 with ⟨s, hS, hPath⟩
        rcases Relation.ReflTransGen.cases_tail hPath with
          hEqS | ⟨a, _, hRefers⟩
        · rw [← hEqS, hEqArray] at hS
          exact hArray.not_mem hS
        · exact hArray.unreferenced a o hRefers hEqArray
      have hAvoid : ¬ (o = x ∨ o = array) :=
        not_or.mpr ⟨hNeX, hNeArray⟩
      rw [← hEq] at hEdge
      by_cases hMaster : u = 0
      · rw [hMaster] at hEdge
        rcases ((hGraph.master o hPos).mp hEdge).2 with
          ⟨r, hMem, hKind, hReferee⟩ |
            ⟨a, hOutside, hRefers⟩
        · rw [← hReferee] at hAvoid ⊢
          exact Heap.ReachedAvoiding.root hMem hKind hAvoid
        · have hReached : ReachedAround h array x a :=
            hOutside.around ((hGraph.held_iff x).mp hPosX).2
          exact Heap.ReachedAvoiding.step hReached hRefers
            hAvoid
      · have hPosU : 0 < u :=
          lt_of_le_of_ne hEdge.source_inRange.1
            (Ne.symm hMaster)
        rcases hGraph.surj u hPosU
            hEdge.source_inRange.2 with ⟨a, hTagA⟩
        have hPosA : 0 < tag a := by
          rw [hTagA]
          exact hPosU
        rw [← hTagA] at hEdge
        exact Heap.ReachedAvoiding.step (ih hPosA hTagA)
          ((hGraph.edge a o hPosA hPos).mp hEdge) hAvoid

theorem rooted_reachable
    (hGraph : MasterGraph h array objects tag g)
    (hRooted : Rooted h array o)
    (hPos : 0 < tag o) :
    g.Reachable (tag o) := by
  have hReached :
      h.ReachedAvoiding (fun p => False ∨ p = array) o :=
    Heap.ReachedAvoiding.mono
      (fun _ hX => hX.resolve_left id) hRooted
  have hNone : ∀ p, 0 < tag p → ¬ False → tag p ≠ -1 := by
    intro p hPosP _ hEq
    rw [hEq] at hPosP
    exact absurd hPosP (by decide)
  exact FlowGraph.reachable_of_avoids
    (hGraph.avoids_of_reached (by decide) hNone hReached
      hPos)

/- The vertices below the master node are rooted objects. -/
theorem rooted_of_reachable
    (hArray : IsInputArray h array objects)
    (hGraph : MasterGraph h array objects tag g)
    {v : jlong}
    (hReach : g.Reachable v)
    (hPos : 0 < tag o)
    (hEq : tag o = v) :
    Rooted h array o := by
  induction hReach generalizing o with
  | root =>
      rw [hEq] at hPos
      exact absurd hPos (lt_irrefl _)
  | @step u v _ hEdge ih =>
      have hNe : o ≠ array := by
        intro hEqA
        rcases ((hGraph.held_iff o).mp hPos).1 with
          ⟨s, hS, hPath⟩
        rcases Relation.ReflTransGen.cases_tail hPath with
          hEqS | ⟨p, _, hRefers⟩
        · rw [← hEqS, hEqA] at hS
          exact hArray.not_mem hS
        · exact hArray.unreferenced p o hRefers hEqA
      rw [← hEq] at hEdge
      by_cases hMaster : u = 0
      · rw [hMaster] at hEdge
        rcases ((hGraph.master o hPos).mp hEdge).2 with
          ⟨r, hMem, hKind, hReferee⟩ |
            ⟨p, hOutside, hRefers⟩
        · rw [← hReferee] at hNe ⊢
          exact Heap.ReachedAvoiding.root hMem hKind hNe
        · have hRooted : Rooted h array p :=
            Heap.ReachedAvoiding.mono
              (fun _ hEqP => Or.inr hEqP) hOutside
          exact Heap.ReachedAvoiding.step hRooted hRefers hNe
      · have hPosU : 0 < u :=
          lt_of_le_of_ne hEdge.source_inRange.1
            (Ne.symm hMaster)
        rcases hGraph.surj u hPosU
            hEdge.source_inRange.2 with ⟨p, hTagP⟩
        have hPosP : 0 < tag p := by
          rw [hTagP]
          exact hPosU
        rw [← hTagP] at hEdge
        exact Heap.ReachedAvoiding.step (ih hPosP hTagP)
          ((hGraph.edge p o hPosP hPos).mp hEdge) hNe

theorem reachable_iff
    (hArray : IsInputArray h array objects)
    (hGraph : MasterGraph h array objects tag g)
    (hPos : 0 < tag o) :
    g.Reachable (tag o) ↔ Rooted h array o := by
  constructor
  · intro hReach
    exact hGraph.rooted_of_reachable hArray hReach hPos rfl
  · intro hRooted
    exact hGraph.rooted_reachable hRooted hPos

/-
  A vertex dominates another one when the roots do not reach
  the object of the latter around that of the former.
-/
theorem dominates_iff
    (hArray : IsInputArray h array objects)
    (hGraph : MasterGraph h array objects tag g)
    (hPosX : 0 < tag x)
    (hPos : 0 < tag o) :
    Dominates g.Edge 0 (tag x) (tag o) ↔
      ¬ ReachedAround h array x o := by
  apply not_congr
  constructor
  · intro hAvoids
    exact hGraph.reached_of_avoids hArray hPosX hAvoids
      hPos rfl
  · intro hReached
    apply hGraph.avoids_of_reached hPosX.ne ?_ hReached hPos
    intro p hPosP hNe hEq
    exact hNe (hGraph.inj p x hPosP hEq)

end MasterGraph

/- What the roots reach, but not around `x`. -/
open scoped Classical in
noncomputable def dominatedObjects
    [Fintype N]
    (h : Heap N)
    (array x : N) : Finset N :=
  Finset.univ.filter
    (fun o => Rooted h array o ∧ ¬ ReachedAround h array x o)

theorem mem_dominatedObjects
    [Fintype N] :
    o ∈ dominatedObjects h array x ↔
      Rooted h array o ∧ ¬ ReachedAround h array x o := by
  classical
  unfold dominatedObjects
  rw [Finset.mem_filter]
  exact and_iff_right (Finset.mem_univ o)

namespace MasterGraph

/- Only held objects are reached through a held object. -/
theorem pos_of_mem_dominatedObjects
    [Fintype N]
    (hGraph : MasterGraph h array objects tag g)
    (hPosX : 0 < tag x)
    (hMem : o ∈ dominatedObjects h array x) :
    0 < tag o := by
  rcases mem_dominatedObjects.mp hMem with
    ⟨hRooted, hNot⟩
  apply (hGraph.held_iff o).mpr
  apply hRooted.held
  intro hOutside
  exact hNot
    (hOutside.around ((hGraph.held_iff x).mp hPosX).2)

/-
  When the roots reach every start object, the vertices that
  the vertex of an object dominates are the objects that
  this object dominates.
-/
theorem dominated_eq_image
    [Fintype N]
    (hArray : IsInputArray h array objects)
    (hGraph : MasterGraph h array objects tag g)
    (hRooted : ∀ s ∈ objects, Rooted h array s)
    (hPosX : 0 < tag x) :
    dominated g (tag x) =
      (dominatedObjects h array x).image tag := by
  ext w
  rw [mem_dominated, Finset.mem_image]
  constructor
  · rintro ⟨hRange, hDom⟩
    have hNe : w ≠ 0 := by
      intro hEq
      rw [hEq] at hDom
      exact hPosX.ne' (dominates_root_iff.mp hDom)
    have hPosW : 0 < w :=
      lt_of_le_of_ne hRange.1 (Ne.symm hNe)
    rcases hGraph.surj w hPosW hRange.2 with ⟨p, hTag⟩
    rw [← hTag] at hPosW hDom
    rcases ((hGraph.held_iff p).mp hPosW).1 with
      ⟨s, hS, hPath⟩
    refine ⟨p, mem_dominatedObjects.mpr ⟨?_, ?_⟩, hTag⟩
    · exact (hRooted s hS).reachable hArray hPath
    · exact (hGraph.dominates_iff hArray hPosX hPosW).mp
        hDom
  · rintro ⟨p, hMem, hTag⟩
    have hPosP :=
      hGraph.pos_of_mem_dominatedObjects hPosX hMem
    have hNot := (mem_dominatedObjects.mp hMem).2
    rw [← hTag]
    refine ⟨⟨hPosP.le, hGraph.lt p⟩, ?_⟩
    exact (hGraph.dominates_iff hArray hPosX hPosP).mpr
      hNot

theorem sum_image_dominatedObjects
    [Fintype N]
    (hGraph : MasterGraph h array objects tag g)
    (hPosX : 0 < tag x)
    {sizes : jlongs}
    (hSizes :
      ∀ p, 0 < tag p → read sizes (tag p) = some (h.size p)) :
    ∑ w ∈ (dominatedObjects h array x).image tag,
        sizeAt sizes w =
      ∑ p ∈ dominatedObjects h array x, h.size p := by
  have hPos :
      ∀ p ∈ dominatedObjects h array x, 0 < tag p :=
    fun p hMem =>
      hGraph.pos_of_mem_dominatedObjects hPosX hMem
  rw [Finset.sum_image]
  · apply Finset.sum_congr rfl
    intro p hMem
    unfold sizeAt
    rw [hSizes p (hPos p hMem)]
    rfl
  · intro p hMem q _ hEq
    exact hGraph.inj p q (hPos p hMem) hEq

end MasterGraph

end Paths

------------------------------------------------------------
-- The Traversals Together
------------------------------------------------------------

section Together

variable {h : Heap N}
variable {array : N}
variable {objects : List N}
variable {start : Tagged N jlong HeapDumpInfo}
variable {before tag : N → jlong}
variable {visited : List Bool}
variable {info : HeapDumpInfo}

/- The dump between the two traversals. -/
def firstDump
    (start : Tagged N jlong HeapDumpInfo)
    (visited : List Bool) : HeapDumpInfo :=
  { start.user with wasVisitedDuringFirstTraversal := visited }

theorem FirstResult.beforeSecond
    (hStart : StartTags h array objects start)
    (hFirst :
      FirstResult h array objects start
        ⟨before, .ok (firstDump start visited)⟩) :
    BeforeSecond h array objects before := by
  have hFresh :
      ∀ o, o ∉ objects → o ≠ array → start.tag o = 0 :=
    hStart.others
  constructor
  · have hNe : start.tag array ≠ 0 := by
      rw [hStart.array_tag]
      decide
    exact (hFirst.kept array hNe).trans hStart.array_tag
  · intro o hMem
    have hPos := hStart.start o hMem
    have hKept : before o = start.tag o :=
      hFirst.kept o hPos.ne'
    rw [hKept]
    exact hPos
  · intro o hOutside
    have hZero :=
      hFresh o hOutside.not_start.1 hOutside.not_start.2
    rcases hFirst.fresh o hZero with
      ⟨_, hNot⟩ | ⟨hTag, _⟩
    · exact absurd hOutside hNot
    · exact hTag
  · intro o hNot hNe hNotOutside
    rcases hFirst.fresh o (hFresh o hNot hNe) with
      ⟨hTag, _⟩ | ⟨_, hOutside⟩
    · exact hTag
    · exact absurd hOutside hNotOutside

/- The first traversal keeps the vertices, without edges. -/
theorem FirstResult.dump
    (hStart : StartTags h array objects start)
    (hFirst :
      FirstResult h array objects start
        ⟨before, .ok (firstDump start visited)⟩) :
    Dump h before (firstDump start visited)
      (firstDump start visited) := by
  have hVertices := hStart.vertices
  have hPosIff :
      ∀ o, 0 < before o → start.tag o = before o := by
    intro o hPos
    by_cases hZero : start.tag o = 0
    · rcases hFirst.fresh o hZero with
        ⟨hTag, _⟩ | ⟨hTag, _⟩
      · have hEq : before o = 0 := hTag
        rw [hEq] at hPos
        exact absurd hPos (lt_irrefl _)
      · have hEq : before o = visitedTag := hTag
        rw [hEq] at hPos
        exact absurd hPos (by decide)
    · exact (hFirst.kept o hZero).symm
  have hCurrent : 0 < start.user.currentTag := by
    rw [hVertices.current]
    exact Int.natCast_pos.mpr hVertices.pos
  refine ⟨⟨hVertices.current, hVertices.sizes_length,
    hVertices.pos, ?_, ?_, ?_, hVertices.master, ?_⟩,
    ?_, rfl, rfl⟩
  · intro o
    by_cases hPos : 0 < before o
    · rw [← hPosIff o hPos]
      exact hVertices.lt o
    · exact (not_lt.mp hPos).trans_lt hCurrent
  · intro o p hPos hEq
    have hPosP : 0 < before p := hEq ▸ hPos
    have hTagO := hPosIff o hPos
    have hTagP := hPosIff p hPosP
    rw [← hTagO] at hPos
    exact hVertices.inj o p hPos
      (hTagO.trans (hEq.trans hTagP.symm))
  · intro k hPos hLt
    rcases hVertices.surj k hPos hLt with ⟨o, hTag⟩
    have hNe : start.tag o ≠ 0 := by
      rw [hTag]
      exact hPos.ne'
    exact ⟨o, (hFirst.kept o hNe).trans hTag⟩
  · intro o hPos
    have hTag := hPosIff o hPos
    rw [← hTag] at hPos ⊢
    exact hVertices.size o hPos
  · intro u ns v hRead hMem
    rw [hStart.no_edges ns (mem_of_read hRead)] at hMem
    exact absurd hMem List.not_mem_nil

/- The start object of a start tag that was visited. -/
theorem exists_start_of_visited
    (hStart : StartTags h array objects start)
    (hFirst :
      FirstResult h array objects start
        ⟨before, .ok (firstDump start visited)⟩)
    (hSecond :
      SecondResult h array objects before tag
        (firstDump start visited) info)
    (hLength : visited.length = start.user.graph.length)
    {k : jlong}
    (hNe : k ≠ 0)
    (hVisited : read visited k = some true) :
    ∃ s ∈ objects,
      tag s = k ∧ 0 < k ∧ Hit h array objects s := by
  have hRange := inRange_of_read hVisited
  have hPos : 0 < k :=
    lt_of_le_of_ne hRange.1 (Ne.symm hNe)
  have hLt : k < start.user.currentTag := by
    rw [hStart.vertices.current, ← hLength]
    exact hRange.2
  rcases hStart.vertices.surj k hPos hLt with ⟨s, hTag⟩
  have hPosS : 0 < start.tag s := by
    rw [hTag]
    exact hPos
  have hMem : s ∈ objects := by
    rcases hStart.tag_cases s with
      ⟨hZero, _, _⟩ | ⟨_, hMem, _⟩ | ⟨hArray, _⟩
    · exact absurd hZero hPosS.ne'
    · exact hMem
    · rw [hArray] at hPosS
      exact absurd hPosS (by decide)
  refine ⟨s, hMem, ?_, hPos, ?_⟩
  · rw [hSecond.start s hMem]
    exact (hFirst.kept s hPosS.ne').trans hTag
  · apply (hFirst.visited s hPosS).mp
    refine ⟨_, rfl, ?_⟩
    rw [hTag]
    exact hVisited

/- Before the loop over the start tags, 0 has no neighbours. -/
theorem Dump.read_zero
    {first : HeapDumpInfo}
    (hDump : Dump h tag first info) :
    read info.graph 0 = some [] := by
  have hZero : InRange info.graph.length 0 :=
    ⟨le_refl _, Int.natCast_pos.mpr hDump.vertices.pos⟩
  rcases exists_read hZero with ⟨ns, hRead⟩
  have hEmpty : ns = [] := by
    apply List.eq_nil_iff_forall_not_mem.mpr
    intro v hMem
    rcases hDump.edges 0 ns v hRead hMem with
      ⟨a, _, hPos, hTag, _⟩
    rw [hTag] at hPos
    exact absurd hPos (lt_irrefl _)
  rw [hRead, hEmpty]

/-
  After the loop, edges lead from 0 to the visited start
  objects, and the others are those of the second traversal.
-/
def Completed
    (info : HeapDumpInfo)
    (visited : List Bool)
    (graph : graph_t) : Prop :=
  ∀ u v, (∃ ns, read graph u = some ns ∧ v ∈ ns) ↔
    (u = 0 ∧ v ≠ 0 ∧ read visited v = some true) ∨
      (u ≠ 0 ∧ ∃ ns, read info.graph u = some ns ∧ v ∈ ns)

theorem Completed.target
    {graph : graph_t}
    (hCompleted : Completed info visited graph)
    (hStart : StartTags h array objects start)
    (hFirst :
      FirstResult h array objects start
        ⟨before, .ok (firstDump start visited)⟩)
    (hSecond :
      SecondResult h array objects before tag
        (firstDump start visited) info)
    (hLength : visited.length = start.user.graph.length)
    {u v : jlong}
    (hNeighbour : ∃ ns, read graph u = some ns ∧ v ∈ ns) :
    ∃ o, 0 < tag o ∧ tag o = v := by
  rcases (hCompleted u v).mp hNeighbour with
    ⟨_, hNe, hTrue⟩ | ⟨_, ns, hReadU, hMemV⟩
  · rcases exists_start_of_visited hStart hFirst hSecond
        hLength hNe hTrue with ⟨s, _, hTag, hPos, _⟩
    exact ⟨s, hTag.symm ▸ hPos, hTag⟩
  · rcases hSecond.dump.edges u ns v hReadU hMemV with
      ⟨_, b, _, _, hPos, hTag, _⟩
    exact ⟨b, hPos, hTag⟩

/- A graph with these edges and all vertices is the wanted one. -/
theorem Completed.masterGraph
    {g : FlowGraph}
    (hCompleted : Completed info visited g.edges)
    (hOrder : (g.order : jlong) = info.currentTag)
    (hStart : StartTags h array objects start)
    (hFirst :
      FirstResult h array objects start
        ⟨before, .ok (firstDump start visited)⟩)
    (hSecond :
      SecondResult h array objects before tag
        (firstDump start visited) info)
    (hLength : visited.length = start.user.graph.length) :
    MasterGraph h array objects tag g := by
  have hDump := hSecond.dump
  have hVertices := hDump.vertices
  constructor
  · intro o
    rw [hOrder]
    exact hVertices.lt o
  · exact hVertices.inj
  · intro k hPos hLt
    rw [hOrder] at hLt
    exact hVertices.surj k hPos hLt
  · exact hSecond.held_iff
  · intro a b hPosA hPosB
    apply (hCompleted (tag a) (tag b)).trans
    constructor
    · rintro (⟨hZero, _⟩ | ⟨_, ns, hReadA, hMemB⟩)
      · exact absurd hZero hPosA.ne'
      · rcases hDump.edges _ ns _ hReadA hMemB with
          ⟨a', b', hPosA', hTagA, hPosB', hTagB, hRefers⟩
        have hEqA := hVertices.inj a' a hPosA' hTagA
        have hEqB := hVertices.inj b' b hPosB' hTagB
        rw [← hEqA, ← hEqB]
        exact hRefers
    · intro hRefers
      rcases hSecond.edge a b hPosA hPosB hRefers with
        ⟨_, ns, hOk, hReadA, hMemB⟩
      cases hOk
      exact Or.inr ⟨hPosA.ne', ns, hReadA, hMemB⟩
  · intro u v hNeighbour
    rcases hCompleted.target hStart hFirst hSecond hLength
      hNeighbour with ⟨o, hPos, hTag⟩
    rw [← hTag]
    exact hPos
  · intro o hPos
    apply (hCompleted 0 (tag o)).trans
    constructor
    · rintro (⟨_, hNe, hTrue⟩ | ⟨hNe, _⟩)
      · rcases exists_start_of_visited hStart hFirst hSecond
            hLength hNe hTrue with
          ⟨s, hMemS, hTag, _, hHit⟩
        have hEq := hVertices.inj s o (hTag.symm ▸ hPos) hTag
        rw [← hEq]
        exact ⟨hMemS, hHit⟩
      · exact absurd rfl hNe
    · rintro ⟨hMemO, hHit⟩
      have hPosStart := hStart.start o hMemO
      have hTag : tag o = start.tag o :=
        (hSecond.start o hMemO).trans
          (hFirst.kept o hPosStart.ne')
      rcases (hFirst.visited o hPosStart).mpr hHit with
        ⟨_, hOk, hTrue⟩
      cases hOk
      rw [hTag]
      exact Or.inl ⟨rfl, hPosStart.ne', hTrue⟩

/-
  After both traversals, the loop over the start tags
  completes the graph.
-/
theorem exists_masterGraph
    (hStart : StartTags h array objects start)
    (hFirst :
      FirstResult h array objects start
        ⟨before, .ok (firstDump start visited)⟩)
    (hSecond :
      SecondResult h array objects before tag
        (firstDump start visited) info)
    (hLength : visited.length = start.user.graph.length) :
    ∃ g : FlowGraph,
      info.setUpNeighboursForMasterNode =
          some { info with graph := g.edges } ∧
        info.sizes.length = g.order ∧
        MasterGraph h array objects tag g := by
  have hDump := hSecond.dump
  have hVertices := hDump.vertices
  have hVisited :
      info.wasVisitedDuringFirstTraversal = visited :=
    hDump.visited
  have hLast :
      info.lastStartTag + 1 =
        (start.user.graph.length : jlong) := by
    have hEq : info.lastStartTag = start.user.lastStartTag :=
      hDump.last
    rw [hEq, hStart.last, hStart.vertices.current]
    exact Int.sub_add_cancel _ _
  rcases setUpNeighbours_spec hLast
      (hVisited ▸ hLength) hDump.read_zero with
    ⟨graph, ms, hLoop, hLen, hKeep, hRead, hMem⟩
  rw [hVisited] at hMem
  have hCompleted : Completed info visited graph := by
    intro u v
    by_cases hEq : u = 0
    · rw [hEq, hRead]
      simp [hMem]
    · rw [hKeep u hEq]
      simp [hEq]
  have hOrder : (graph.length : jlong) = info.currentTag := by
    rw [hLen, hVertices.current]
  have hInRange :
      ∀ ws ∈ graph, ∀ w ∈ ws, InRange graph.length w := by
    intro ws hWs w hW
    rcases exists_read_of_mem hWs with ⟨u, hReadU⟩
    rcases hCompleted.target hStart hFirst hSecond hLength
      ⟨ws, hReadU, hW⟩ with ⟨o, hPos, hTag⟩
    rw [← hTag]
    refine ⟨hPos.le, ?_⟩
    rw [hOrder]
    exact hVertices.lt o
  exact
    ⟨⟨graph, hLen.symm ▸ hVertices.pos, hInRange⟩, hLoop,
      hVertices.sizes_length.trans hLen.symm,
      Completed.masterGraph hCompleted hOrder hStart hFirst
        hSecond hLength⟩

end Together

------------------------------------------------------------
-- Retained Sizes
------------------------------------------------------------

section Sizes

variable [DecidableEq N]
variable {h : Heap N}
variable {array : N}
variable {objects : List N}
variable {tag : N → jlong}
variable {first second : List (Report N)}

/- The state between the traversals. -/
theorem traverseFirst_between
    {start : Tagged N jlong HeapDumpInfo}
    (hStart : StartTags h array objects start)
    (hFirst :
      h.FollowReferences none firstTraversal
        ⟨start.tag, .ok start.user⟩ first) :
    ∃ (before : N → jlong) (visited : List Bool),
      traverseFirst h start first =
          ⟨before, .ok (firstDump start visited)⟩ ∧
        FirstResult h array objects start
          ⟨before, .ok (firstDump start visited)⟩ ∧
        visited.length = start.user.graph.length := by
  have hResult := traverseFirst_result hStart hFirst
  rcases hResult.user with ⟨visited, hUser, hLength⟩
  have hBetween :
      traverseFirst h start first =
        ⟨(traverseFirst h start first).tag,
          .ok (firstDump start visited)⟩ := by
    rw [firstDump, ← hUser]
  rw [hBetween] at hResult
  exact ⟨_, visited, hBetween, hResult, hLength⟩

/- There are uninterrupted traversals. -/
theorem exists_traversed
    [Fintype N]
    (hArray : IsInputArray h array objects)
    (hTag :
      ∀ o ∈ objects, tag o = 0 ∨ tag o = objectOfClassTag)
    (hOthers : ∀ o, o ∉ objects → tag o = 0) :
    ∃ first second : List (Report N),
      Traversed h array objects tag first second := by
  have hStart :=
    tagObjects_startTags (h := h) hArray.not_mem hTag hOthers
  rcases exists_first hStart with ⟨first, hFirst⟩
  rcases traverseFirst_between hStart hFirst with
    ⟨before, visited, hBetween, hResult, _⟩
  rcases exists_second hArray (hResult.beforeSecond hStart)
      (hResult.dump hStart) with
    ⟨second, hSecond⟩
  refine ⟨first, second, hFirst, ?_⟩
  rw [hBetween]
  exact hSecond

/-
  The calculation is the one of the dominator tree, on the
  graph that the traversals build.
-/
theorem calculateRetainedSizes_eq
    (hArray : IsInputArray h array objects)
    (hTag :
      ∀ o ∈ objects, tag o = 0 ∨ tag o = objectOfClassTag)
    (hOthers : ∀ o, o ∉ objects → tag o = 0)
    (hTraversed :
      Traversed h array objects tag first second) :
    ∃ (tag' : N → jlong)
      (info : HeapDumpInfo)
      (g : FlowGraph),
      calculateRetainedSizes h array objects tag first
          second =
        (calculateRetainedSizesViaDominatorTree (g.order + 1)
          g.edges info.sizes).map
            (fun sizes => ⟨tag', info, sizes⟩) ∧
      info.sizes.length = g.order ∧
      MasterGraph h array objects tag' g ∧
      (∀ o ∈ objects, 0 < tag' o) ∧
      (∀ o, 0 < tag' o →
        read info.sizes (tag' o) = some (h.size o)) ∧
      (traverseSecond h array
        (traverseFirst h (tagObjects h array objects tag)
          first) second).tag = tag' := by
  have hStart :=
    tagObjects_startTags (h := h) hArray.not_mem hTag hOthers
  rcases traverseFirst_between hStart
      hTraversed.first_complete with
    ⟨before, visited, hBetween, hFirst, hLength⟩
  have hComplete := hTraversed.second_complete
  rw [hBetween] at hComplete
  have hBefore := hFirst.beforeSecond hStart
  rcases followReferences_secondResult hArray hBefore
      (hFirst.dump hStart) hComplete with
    ⟨tag', info, hSecondRun, hSecond⟩
  rcases exists_masterGraph hStart hFirst hSecond hLength with
    ⟨g, hLoop, hSizes, hGraph⟩
  have hRun :
      traverseSecond h array
          (traverseFirst h (tagObjects h array objects tag)
            first) second =
        ⟨tag', .ok info⟩ := by
    rw [hBetween]
    exact hSecondRun
  refine ⟨tag', { info with graph := g.edges }, g, ?_,
    hSizes, hGraph, ?_, hSecond.dump.vertices.size, ?_⟩
  · simp only [calculateRetainedSizes, hRun, hLoop,
      Option.bind_eq_bind, Option.bind_some]
    rw [Option.map_eq_bind]
    rfl
  · intro o hMem
    rw [hSecond.start o hMem]
    exact hBefore.start o hMem
  · rw [hRun]

/-
  When the roots reach every start object, the retained size
  of a start object is the size of what it dominates.
-/
theorem calculateRetainedSizes_spec
    [Fintype N]
    (hArray : IsInputArray h array objects)
    (hTag :
      ∀ o ∈ objects, tag o = 0 ∨ tag o = objectOfClassTag)
    (hOthers : ∀ o, o ∉ objects → tag o = 0)
    (hTraversed :
      Traversed h array objects tag first second)
    (hRooted : ∀ s ∈ objects, Rooted h array s) :
    ∃ c,
      calculateRetainedSizes h array objects tag first
          second = some c ∧
      ∀ o ∈ objects,
        c.retainedSize o =
            some
              (∑ p ∈ dominatedObjects h array o, h.size p) ∧
          c.shallowSize o = some (h.size o) := by
  rcases calculateRetainedSizes_eq hArray hTag hOthers
      hTraversed with
    ⟨tag', info, g, hEq, hSizes, hGraph, hPos, hSize, _⟩
  have hReach : ∀ v, InRange g.order v → g.Reachable v := by
    rintro v ⟨hNonneg, hLt⟩
    rcases hNonneg.eq_or_lt with hZero | hPosV
    · rw [← hZero]
      exact FlowGraph.Reachable.root
    · rcases hGraph.surj v hPosV hLt with ⟨p, hTagP⟩
      rw [← hTagP] at hPosV ⊢
      rcases ((hGraph.held_iff p).mp hPosV).1 with
        ⟨s, hS, hPath⟩
      exact hGraph.rooted_reachable
        ((hRooted s hS).reachable hArray hPath) hPosV
  rcases calculate_spec info.sizes hSizes hReach
      (Nat.lt_succ_self g.order) with
    ⟨result, hResult, hSum⟩
  refine ⟨⟨tag', info, tabulate g.order result⟩, ?_, ?_⟩
  · rw [hEq, hResult]
    rfl
  · intro o hMem
    have hPosO := hPos o hMem
    have hRange : InRange g.order (tag' o) :=
      ⟨hPosO.le, hGraph.lt o⟩
    refine ⟨?_, hSize o hPosO⟩
    change read (tabulate g.order result) (tag' o) = _
    rw [read_tabulate result hRange, hSum _ hRange,
      hGraph.dominated_eq_image hArray hRooted hPosO]
    exact congrArg some
      (hGraph.sum_image_dominatedObjects hPosO hSize)

end Sizes

------------------------------------------------------------
-- The Heap without the Array
------------------------------------------------------------

section WithoutArray

variable {O : Type}
variable (h : Heap O)
variable (array : InputArray O)

theorem isInputArray :
    IsInputArray (array.heap h) none
      (array.elements.map some) := by
  constructor
  · intro a b hRefers hEq
    rw [hEq] at hRefers
    cases a with
    | none =>
        rcases (array.refers_none_iff h none).mp hRefers with
          ⟨o, _, hNone⟩
        cases hNone
    | some a =>
        rcases (array.refers_some_iff h a none).mp hRefers
          with ⟨o, hNone, _⟩
        cases hNone
  · intro b
    rw [array.refers_none_iff h b, List.mem_map]
    constructor
    · rintro ⟨o, hMem, hEq⟩
      exact ⟨o, hMem, hEq.symm⟩
    · rintro ⟨o, hMem, hEq⟩
      exact ⟨o, hMem, hEq.symm⟩

theorem rooted_some_iff
    (o : O) :
    Rooted (array.heap h) none (some o) ↔
      h.RootReachable o := by
  apply Iff.trans ?_ (array.reachedAvoiding_iff h _ o)
  constructor
  · intro hRooted
    refine Heap.ReachedAvoiding.mono ?_ hRooted
    rintro (_ | p) hAround
    · rfl
    · exact absurd hAround id
  · intro hReached
    refine Heap.ReachedAvoiding.mono ?_ hReached
    rintro p hEq
    rw [hEq]
    trivial

theorem reachedAround_some_iff
    (x o : O) :
    ReachedAround (array.heap h) none (some x) (some o) ↔
      h.ReachedAvoiding (· = x) o := by
  apply Iff.trans ?_ (array.reachedAvoiding_iff h _ o)
  constructor
  · intro hAround
    refine Heap.ReachedAvoiding.mono ?_ hAround
    rintro (_ | p) hP
    · exact Or.inr rfl
    · exact Or.inl (congrArg some hP)
  · intro hReached
    refine Heap.ReachedAvoiding.mono ?_ hReached
    rintro p (hEq | hEq)
    · rw [hEq]
      exact rfl
    · rw [hEq]
      trivial

/- The total size of what an object dominates. -/
open scoped Classical in
noncomputable def dominatedSize
    [Fintype O]
    (h : Heap O)
    (x : O) : jlong :=
  ∑ o ∈ Finset.univ.filter (fun o => h.Dominates x o),
    h.size o

theorem mem_dominatedObjects_iff
    [Fintype O]
    (x : O)
    (p : Option O) :
    p ∈ dominatedObjects (array.heap h) none (some x) ↔
      ∃ o, h.Dominates x o ∧ some o = p := by
  rw [mem_dominatedObjects]
  cases p with
  | none =>
      constructor
      · rintro ⟨hRooted, _⟩
        exact absurd rfl
          (Heap.ReachedAvoiding.not_mem
            (X := fun q => q = none) hRooted)
      · rintro ⟨o, _, hNone⟩
        cases hNone
  | some o =>
      rw [rooted_some_iff, reachedAround_some_iff]
      constructor
      · intro hDominates
        exact ⟨o, hDominates, rfl⟩
      · rintro ⟨q, hDominates, hEq⟩
        rw [← Option.some.inj hEq]
        exact hDominates

theorem sum_dominatedObjects
    [Fintype O]
    (x : O) :
    ∑ p ∈ dominatedObjects (array.heap h) none (some x),
        (array.heap h).size p =
      dominatedSize h x := by
  classical
  have hImage :
      dominatedObjects (array.heap h) none (some x) =
        (Finset.univ.filter
          (fun o => h.Dominates x o)).image some := by
    ext p
    rw [mem_dominatedObjects_iff, Finset.mem_image]
    apply exists_congr
    intro o
    rw [Finset.mem_filter]
    apply and_congr_left
    intro _
    exact (and_iff_right (Finset.mem_univ o)).symm
  unfold dominatedSize
  rw [hImage, Finset.sum_image
    (fun _ _ _ _ hEq => Option.some.inj hEq)]
  rfl

end WithoutArray

end ViaDominatorTree

end MemoryAgent
