import Mathlib.Data.Finset.Card
import Mathlib.Data.Finset.Image
import Mathlib.Data.Int.Basic
import MemoryAgent.Graph.Dominance
import MemoryAgent.Sizes.DominatorTree.Program

/-
  The depth-first search of the dominator tree builds a
  depth-first tree of the vertices that it reaches.

  Key definitions include:
    * `DominatorTree.FlowGraph`
    * `DominatorTree.Search`
    * `DominatorTree.Search.Valid`
    * `DominatorTree.Search.Extends`
    * `DominatorTree.Search.Finished`

  Main results:
    * `DominatorTree.dfs_spec`
    * `DominatorTree.Search.depthFirstTree`
    * `DominatorTree.exists_dfs`
-/

------------------------------------------------------------
-- Flow Graphs
------------------------------------------------------------

namespace MemoryAgent

namespace DominatorTree

open StdVector Dominance

/- A nonempty graph whose edges end at vertices. -/
structure FlowGraph where
  edges : graph_t
  nonempty : 0 < edges.length
  inRange :
    ∀ ws ∈ edges, ∀ w ∈ ws, InRange edges.length w

namespace FlowGraph

/- The number of vertices. -/
def order (g : FlowGraph) : Nat :=
  g.edges.length

def Edge
    (g : FlowGraph)
    (v w : jlong) : Prop :=
  ∃ ws, read g.edges v = some ws ∧ w ∈ ws

inductive Reachable (g : FlowGraph) : jlong → Prop
| root : Reachable g 0
| step {v w : jlong} :
    Reachable g v → g.Edge v w → Reachable g w

variable {g : FlowGraph}
variable {v w : jlong}

theorem Edge.source_inRange
    (hEdge : g.Edge v w) :
    InRange g.order v := by
  rcases hEdge with ⟨ws, hRead, _⟩
  exact inRange_of_read hRead

theorem Edge.target_inRange
    (hEdge : g.Edge v w) :
    InRange g.order w := by
  rcases hEdge with ⟨ws, hRead, hMem⟩
  exact g.inRange ws (mem_of_read hRead) w hMem

theorem root_inRange
    (g : FlowGraph) :
    InRange g.order 0 := by
  have hPos := g.nonempty
  constructor
  · omega
  · unfold order
    omega

end FlowGraph

------------------------------------------------------------
-- States of the Search
------------------------------------------------------------

/- A state of the search with its vectors as functions. -/
structure Search where
  n : Nat
  semi : jlong → jlong
  parent : jlong → jlong
  vertex : jlong → jlong
  pred : jlong → jlongs

namespace Search

def numbering
    (size : Nat)
    (s : Search) : Numbering where
  n := s.n
  semi := tabulate size s.semi
  parent := tabulate size s.parent
  vertex := tabulate size s.vertex
  pred := tabulate size s.pred

/- The vertex with the number `k`. -/
def nth
    (s : Search)
    (k : Nat) : jlong :=
  s.vertex k

def Numbered
    (s : Search)
    (v : jlong) : Prop :=
  ∃ k, k < s.n ∧ s.nth k = v

/-
  The numbered vertices form a tree in which the parent of
  each vertex is an ancestor of the one numbered before it.
-/
structure Valid
    (g : FlowGraph)
    (s : Search) : Prop where
  inRange : ∀ k, k < s.n → InRange g.order (s.nth k)
  semi_nth : ∀ k, k < s.n → s.semi (s.nth k) = k
  semi_new : ∀ v, ¬ s.Numbered v → s.semi v = 0
  root : 0 < s.n → s.nth 0 = 0
  parent :
    ∀ k, k < s.n → 0 < k →
      ∃ j, j < k ∧ s.parent (s.nth k) = s.nth j ∧
        g.Edge (s.nth j) (s.nth k)
  next :
    ∀ k, k + 1 < s.n →
      Ancestor 0 s.parent (s.parent (s.nth (k + 1))) (s.nth k)
  pred :
    ∀ v w, v ∈ s.pred w → s.Numbered v ∧ g.Edge v w

/- `s'` numbers more vertices than `s` does. -/
structure Extends (s s' : Search) : Prop where
  le : s.n ≤ s'.n
  nth_eq : ∀ k, k < s.n → s'.nth k = s.nth k
  parent_eq :
    ∀ k, k < s.n → s'.parent (s.nth k) = s.parent (s.nth k)
  pred_subset : ∀ v w, v ∈ s.pred w → v ∈ s'.pred w

/-
  All successors of vertex number `k` are numbered and know
  it as a predecessor, the later ones as descendants.
-/
def Finished
    (g : FlowGraph)
    (s : Search)
    (k : Nat) : Prop :=
  ∀ w, g.Edge (s.nth k) w →
    s.nth k ∈ s.pred w ∧
      ∃ j, j < s.n ∧ s.nth j = w ∧
        (k < j → Ancestor 0 s.parent (s.nth k) w)

variable {g : FlowGraph}
variable {s s' s'' : Search}
variable {v w a : jlong}

theorem Extends.refl
    (s : Search) :
    Extends s s :=
  ⟨le_rfl, fun _ _ => rfl, fun _ _ => rfl,
    fun _ _ hMem => hMem⟩

theorem Extends.trans
    (hLeft : Extends s s')
    (hRight : Extends s' s'') :
    Extends s s'' := by
  refine ⟨hLeft.le.trans hRight.le, ?_, ?_, ?_⟩
  · intro k hLt
    have hLt' : k < s'.n := hLt.trans_le hLeft.le
    exact (hRight.nth_eq k hLt').trans (hLeft.nth_eq k hLt)
  · intro k hLt
    have hLt' : k < s'.n := hLt.trans_le hLeft.le
    have hStep := hRight.parent_eq k hLt'
    rw [hLeft.nth_eq k hLt] at hStep
    exact hStep.trans (hLeft.parent_eq k hLt)
  · intro v w hMem
    exact hRight.pred_subset v w
      (hLeft.pred_subset v w hMem)

theorem Extends.numbered
    (hExt : Extends s s')
    (hNumbered : s.Numbered v) :
    s'.Numbered v := by
  rcases hNumbered with ⟨k, hLt, hEq⟩
  exact ⟨k, hLt.trans_le hExt.le,
    (hExt.nth_eq k hLt).trans hEq⟩

theorem Valid.nth_inj
    (hValid : Valid g s)
    {j k : Nat}
    (hJ : j < s.n)
    (hK : k < s.n)
    (hEq : s.nth j = s.nth k) :
    j = k := by
  have hSemi := hValid.semi_nth j hJ
  rw [hEq, hValid.semi_nth k hK] at hSemi
  exact Int.ofNat.inj hSemi.symm

theorem Valid.root_numbered
    (hValid : Valid g s)
    (hPos : 0 < s.n) :
    s.Numbered 0 :=
  ⟨0, hPos, hValid.root hPos⟩

/- The test for a new vertex reads off the numbering. -/
theorem Valid.isNew_eq
    (hValid : Valid g s)
    (hPos : 0 < s.n)
    (hRange : InRange g.order w) :
    (isNew w (s.numbering g.order) = some true ∧
        ¬ s.Numbered w) ∨
      (isNew w (s.numbering g.order) = some false ∧
        s.Numbered w) := by
  by_cases hRoot : w = 0
  · subst hRoot
    exact Or.inr
      ⟨by simp [isNew], hValid.root_numbered hPos⟩
  have hRead :
      isNew w (s.numbering g.order) =
        some (decide (s.semi w = 0)) := by
    simp [isNew, numbering, hRoot, read_tabulate _ hRange]
  by_cases hNumbered : s.Numbered w
  · rcases hNumbered with ⟨k, hLt, hEq⟩
    have hSemi : s.semi w ≠ 0 := by
      intro hZero
      rw [← hEq, hValid.semi_nth k hLt] at hZero
      have hK : k = 0 := Int.ofNat.inj hZero
      subst hK
      exact hRoot (hEq.symm.trans (hValid.root hPos))
    refine Or.inr ⟨?_, k, hLt, hEq⟩
    rw [hRead]
    simp [hSemi]
  · refine Or.inl ⟨?_, hNumbered⟩
    rw [hRead]
    simp [hValid.semi_new w hNumbered]

/- Extending a search keeps its tree. -/
theorem Extends.ancestor
    (hExt : Extends s s')
    (hValid : Valid g s)
    {k : Nat}
    (hLt : k < s.n)
    (hAnc : Ancestor 0 s.parent a (s.nth k)) :
    Ancestor 0 s'.parent a (s.nth k) := by
  induction k using Nat.strongRecOn with
  | ind k ih =>
      by_cases hEq : a = s.nth k
      · rw [← hEq]
        exact Ancestor.refl
      rcases hAnc.of_ne hEq with ⟨hRoot, hParent⟩
      have hPos : 0 < k := by
        rcases Nat.eq_zero_or_pos k with hZero | hPos
        · subst hZero
          exact absurd (hValid.root hLt) hRoot
        · exact hPos
      rcases hValid.parent k hLt hPos with
        ⟨j, hJ, hEqJ, _⟩
      refine Ancestor.child hRoot ?_
      rw [hExt.parent_eq k hLt]
      rw [hEqJ] at hParent ⊢
      exact ih j hJ (by omega) hParent

theorem Extends.finished
    (hExt : Extends s s')
    (hValid : Valid g s)
    {k : Nat}
    (hLt : k < s.n)
    (hFinished : Finished g s k) :
    Finished g s' k := by
  intro w hEdge
  rw [hExt.nth_eq k hLt] at hEdge ⊢
  rcases hFinished w hEdge with
    ⟨hMem, j, hJ, hEqJ, hForward⟩
  refine ⟨hExt.pred_subset _ w hMem, j,
    hJ.trans_le hExt.le, (hExt.nth_eq j hJ).trans hEqJ, ?_⟩
  intro hLater
  rw [← hEqJ] at hForward ⊢
  exact hExt.ancestor hValid hJ (hForward hLater)

theorem Valid.n_le_order
    (hValid : Valid g s) :
    s.n ≤ g.order := by
  let numbers : Finset Nat :=
    (Finset.range s.n).image (fun k => (s.nth k).toNat)
  have hCard : numbers.card = s.n := by
    rw [Finset.card_image_of_injOn, Finset.card_range]
    intro j hJ k hK hEq
    have hLtJ := Finset.mem_range.mp hJ
    have hLtK := Finset.mem_range.mp hK
    have hNat : (s.nth j).toNat = (s.nth k).toNat := hEq
    refine hValid.nth_inj hLtJ hLtK ?_
    rw [← Int.toNat_of_nonneg (hValid.inRange j hLtJ).1,
      hNat, Int.toNat_of_nonneg (hValid.inRange k hLtK).1]
  have hSubset : numbers ⊆ Finset.range g.order := by
    intro x hMem
    rcases Finset.mem_image.mp hMem with ⟨k, hK, hEq⟩
    have hRange :=
      hValid.inRange k (Finset.mem_range.mp hK)
    have hLeft := hRange.1
    have hRight := hRange.2
    rw [Finset.mem_range]
    omega
  have hLe := Finset.card_le_card hSubset
  rw [hCard, Finset.card_range] at hLe
  exact hLe

------------------------------------------------------------
-- Steps of the Search
------------------------------------------------------------

/- Giving `v` the next number. -/
def number
    (s : Search)
    (v : jlong) : Search :=
  { s with
    n := s.n + 1
    semi := Function.update s.semi v s.n
    vertex := Function.update s.vertex s.n v }

def setParent
    (s : Search)
    (w v : jlong) : Search :=
  { s with parent := Function.update s.parent w v }

def addPred
    (s : Search)
    (w v : jlong) : Search :=
  { s with pred := Function.update s.pred w (s.pred w ++ [v]) }

/-
  What the search needs of the vertex it is called for: the
  vertices numbered since its parent are below its parent.
-/
def Ready
    (g : FlowGraph)
    (s : Search)
    (v : jlong) : Prop :=
  ¬ s.Numbered v ∧ InRange g.order v ∧
    (s.n = 0 → v = 0) ∧
      (0 < s.n →
        ∃ m, m < s.n ∧ s.parent v = s.nth m ∧
          g.Edge (s.nth m) v ∧
            ∀ k, m ≤ k → k < s.n →
              Ancestor 0 s.parent (s.nth m) (s.nth k))

theorem number_nth
    (s : Search)
    (v : jlong) :
    (s.number v).nth s.n = v := by
  simp [number, Search.nth]

theorem number_nth_of_lt
    {k : Nat}
    (hLt : k < s.n) :
    (s.number v).nth k = s.nth k := by
  have hNe : (k : Int) ≠ s.n := by omega
  simp [number, Search.nth, hNe]

theorem number_extends
    (s : Search)
    (v : jlong) :
    Extends s (s.number v) := by
  refine ⟨Nat.le_succ s.n, ?_, ?_, ?_⟩
  · intro k hLt
    exact number_nth_of_lt hLt
  · intro k _
    rfl
  · intro x y hMem
    exact hMem

theorem Valid.number
    (hValid : Valid g s)
    (hReady : Ready g s v) :
    Valid g (s.number v) := by
  rcases hReady with ⟨hNew, hRange, hFirst, hBelow⟩
  have hCases :
      ∀ k, k < (s.number v).n → k < s.n ∨ k = s.n := by
    intro k hLt
    have hLt' : k < s.n + 1 := hLt
    omega
  refine ⟨?_, ?_, ?_, ?_, ?_, ?_, ?_⟩
  · intro k hLt
    rcases hCases k hLt with hOld | hEq
    · rw [number_nth_of_lt hOld]
      exact hValid.inRange k hOld
    · rw [hEq, number_nth]
      exact hRange
  · intro k hLt
    rcases hCases k hLt with hOld | hEq
    · rw [number_nth_of_lt hOld]
      have hNe : s.nth k ≠ v := fun hEq => hNew ⟨k, hOld, hEq⟩
      change Function.update s.semi v s.n (s.nth k) = k
      rw [Function.update_of_ne hNe]
      exact hValid.semi_nth k hOld
    · rw [hEq, number_nth]
      exact Function.update_self v _ _
  · intro x hNewX
    have hNe : x ≠ v := by
      intro hEq
      refine hNewX ⟨s.n, Nat.lt_succ_self s.n, ?_⟩
      rw [hEq]
      exact number_nth s v
    change Function.update s.semi v s.n x = 0
    rw [Function.update_of_ne hNe]
    exact hValid.semi_new x
      (fun hOld => hNewX ((number_extends s v).numbered hOld))
  · intro _
    rcases Nat.eq_zero_or_pos s.n with hZero | hPos
    · have hAt := number_nth s v
      rw [hZero] at hAt
      rw [hAt]
      exact hFirst hZero
    · rw [number_nth_of_lt hPos]
      exact hValid.root hPos
  · intro k hLt hPosK
    rcases hCases k hLt with hOld | hEq
    · rcases hValid.parent k hOld hPosK with
        ⟨j, hJ, hEqJ, hEdge⟩
      refine ⟨j, hJ, ?_, ?_⟩
      · rw [number_nth_of_lt hOld,
          number_nth_of_lt (hJ.trans hOld)]
        exact hEqJ
      · rw [number_nth_of_lt hOld,
          number_nth_of_lt (hJ.trans hOld)]
        exact hEdge
    · subst hEq
      rcases hBelow hPosK with ⟨m, hM, hEqM, hEdge, _⟩
      refine ⟨m, hM, ?_, ?_⟩
      · rw [number_nth, number_nth_of_lt hM]
        exact hEqM
      · rw [number_nth, number_nth_of_lt hM]
        exact hEdge
  · intro k hLt
    have hOldK : k < s.n := by
      have hLt' : k + 1 < s.n + 1 := hLt
      omega
    rw [number_nth_of_lt hOldK]
    rcases hCases (k + 1) hLt with hOld | hEq
    · rw [number_nth_of_lt hOld]
      exact hValid.next k hOld
    · rcases hBelow (by omega) with ⟨m, hM, hEqM, _, hAnc⟩
      rw [hEq, number_nth]
      change Ancestor 0 s.parent (s.parent v) (s.nth k)
      rw [hEqM]
      exact hAnc k (by omega) hOldK
  · intro x y hMem
    rcases hValid.pred x y hMem with ⟨hNumbered, hEdge⟩
    exact ⟨(number_extends s v).numbered hNumbered, hEdge⟩

theorem setParent_extends
    (hNew : ¬ s.Numbered w) :
    Extends s (s.setParent w v) := by
  refine ⟨le_rfl, fun _ _ => rfl, ?_, fun _ _ hMem => hMem⟩
  intro k hLt
  have hNe : s.nth k ≠ w := fun hEq => hNew ⟨k, hLt, hEq⟩
  exact Function.update_of_ne hNe _ _

theorem Valid.setParent
    (hValid : Valid g s)
    (hNew : ¬ s.Numbered w) :
    Valid g (s.setParent w v) := by
  have hExt : Extends s (s.setParent w v) :=
    setParent_extends hNew
  refine ⟨hValid.inRange, hValid.semi_nth, hValid.semi_new,
    hValid.root, ?_, ?_, hValid.pred⟩
  · intro k hLt hPos
    rcases hValid.parent k hLt hPos with
      ⟨j, hJ, hEqJ, hEdge⟩
    exact ⟨j, hJ, (hExt.parent_eq k hLt).trans hEqJ, hEdge⟩
  · intro k hLt
    have hEq := hExt.parent_eq (k + 1) hLt
    have hK : k < s.n := by
      have hLt' : k + 1 < s.n := hLt
      omega
    have hAnc :=
      hExt.ancestor hValid hK (hValid.next k hLt)
    rw [← hEq] at hAnc
    exact hAnc

theorem addPred_extends
    (s : Search)
    (w v : jlong) :
    Extends s (s.addPred w v) := by
  refine ⟨le_rfl, fun _ _ => rfl, fun _ _ => rfl, ?_⟩
  intro x y hMem
  change x ∈ Function.update s.pred w (s.pred w ++ [v]) y
  by_cases hEq : y = w
  · subst hEq
    rw [Function.update_self]
    exact List.mem_append_left _ hMem
  · rw [Function.update_of_ne hEq]
    exact hMem

theorem Valid.addPred
    (hValid : Valid g s)
    (hNumbered : s.Numbered v)
    (hEdge : g.Edge v w) :
    Valid g (s.addPred w v) := by
  refine ⟨hValid.inRange, hValid.semi_nth, hValid.semi_new,
    hValid.root, hValid.parent, hValid.next, ?_⟩
  intro x y hMem
  change x ∈ Function.update s.pred w (s.pred w ++ [v]) y
    at hMem
  by_cases hEq : y = w
  · subst hEq
    rw [Function.update_self] at hMem
    rcases List.mem_append.mp hMem with hOld | hLast
    · exact hValid.pred x y hOld
    · rw [List.mem_singleton.mp hLast]
      exact ⟨hNumbered, hEdge⟩
  · rw [Function.update_of_ne hEq] at hMem
    exact hValid.pred x y hMem

------------------------------------------------------------
-- Calls of the Search
------------------------------------------------------------

/- What a call for `v` adds to a search. -/
structure Searched
    (g : FlowGraph)
    (s s' : Search)
    (v : jlong) : Prop where
  valid : Valid g s'
  ext : Extends s s'
  lt : s.n < s'.n
  nth : s'.nth s.n = v
  parent : s'.parent v = s.parent v
  below :
    ∀ k, s.n ≤ k → k < s'.n →
      Ancestor 0 s'.parent v (s'.nth k)
  finished :
    ∀ k, s.n ≤ k → k < s'.n → Finished g s' k

/-
  The state inside the loop over the successors of vertex
  number `m`: everything numbered since is below it.
-/
structure InLoop
    (g : FlowGraph)
    (s : Search)
    (m : Nat) : Prop where
  valid : Valid g s
  lt : m < s.n
  below :
    ∀ k, m ≤ k → k < s.n →
      Ancestor 0 s.parent (s.nth m) (s.nth k)

/- What a part of this loop adds to a search. -/
structure Looped
    (g : FlowGraph)
    (s s' : Search)
    (m : Nat) : Prop where
  inLoop : InLoop g s' m
  ext : Extends s s'
  finished :
    ∀ k, s.n ≤ k → k < s'.n → Finished g s' k

theorem Looped.refl
    {m : Nat}
    (hLoop : InLoop g s m) :
    Looped g s s m := by
  refine ⟨hLoop, Extends.refl s, ?_⟩
  intro k hLe hLt
  omega

theorem Looped.trans
    {m : Nat}
    (hLeft : Looped g s s' m)
    (hRight : Looped g s' s'' m) :
    Looped g s s'' m := by
  refine ⟨hRight.inLoop, hLeft.ext.trans hRight.ext, ?_⟩
  intro k hLe hLt
  by_cases hOld : k < s'.n
  · exact hRight.ext.finished hLeft.inLoop.valid hOld
      (hLeft.finished k hLe hOld)
  · exact hRight.finished k (by omega) hLt

/- Recording a predecessor inside the loop. -/
theorem InLoop.addPred
    {m : Nat}
    (hLoop : InLoop g s m)
    (hEdge : g.Edge (s.nth m) w) :
    Looped g s (s.addPred w (s.nth m)) m := by
  refine ⟨⟨?_, hLoop.lt, hLoop.below⟩,
    addPred_extends s w _, ?_⟩
  · exact hLoop.valid.addPred ⟨m, hLoop.lt, rfl⟩ hEdge
  · intro k hLe hLt
    have hLt' : k < s.n := hLt
    omega

/- A new successor is ready to be searched. -/
theorem InLoop.ready
    {m : Nat}
    (hLoop : InLoop g s m)
    (hEdge : g.Edge (s.nth m) w)
    (hNew : ¬ s.Numbered w) :
    Ready g (s.setParent w (s.nth m)) w := by
  refine ⟨hNew, hEdge.target_inRange, ?_, ?_⟩
  · intro hZero
    have hLt := hLoop.lt
    change s.n = 0 at hZero
    omega
  · intro _
    refine ⟨m, hLoop.lt, Function.update_self w _ _, hEdge,
      ?_⟩
    intro k hLe hLt
    exact (setParent_extends hNew).ancestor hLoop.valid hLt
      (hLoop.below k hLe hLt)

/- The search of a new successor stays inside the loop. -/
theorem InLoop.search
    {m : Nat}
    (hLoop : InLoop g s m)
    (hNew : ¬ s.Numbered w)
    (hSearched :
      Searched g (s.setParent w (s.nth m)) s' w) :
    Looped g s s' m := by
  have hSet : Extends s (s.setParent w (s.nth m)) :=
    setParent_extends hNew
  have hExt : Extends s s' := hSet.trans hSearched.ext
  have hLt : m < s'.n := hLoop.lt.trans_le hExt.le
  refine ⟨⟨hSearched.valid, hLt, ?_⟩, hExt,
    hSearched.finished⟩
  intro k hLe hLtK
  rw [hExt.nth_eq m hLoop.lt]
  by_cases hOld : k < s.n
  · rw [hExt.nth_eq k hOld]
    exact hExt.ancestor hLoop.valid hOld
      (hLoop.below k hLe hOld)
  · -- Everything newer is below `w`, a child of `v`.
    have hRoot : w ≠ 0 := by
      intro hEq
      refine hNew ?_
      rw [hEq]
      exact hLoop.valid.root_numbered
        (Nat.zero_lt_of_lt hLoop.lt)
    have hParent : s'.parent w = s.nth m :=
      hSearched.parent.trans (Function.update_self w _ _)
    have hChild : Ancestor 0 s'.parent (s.nth m) w := by
      refine Ancestor.child hRoot ?_
      rw [hParent]
      exact Ancestor.refl
    exact hChild.trans
      (hSearched.below k (Nat.not_lt.mp hOld) hLtK)

/- Numbering a vertex starts its loop. -/
theorem Ready.inLoop
    (hReady : Ready g s v)
    (hValid : Valid g s) :
    InLoop g (s.number v) s.n := by
  refine ⟨hValid.number hReady, Nat.lt_succ_self s.n, ?_⟩
  intro k hLe hLt
  have hLt' : k < s.n + 1 := hLt
  have hEq : k = s.n := by omega
  rw [hEq]
  exact Ancestor.refl

/-
  After the loop the vertex is finished with everything
  that was numbered below it.
-/
theorem Looped.searched
    (hLooped : Looped g (s.number v) s' s.n)
    (hKnown :
      ∀ w, g.Edge v w → s'.Numbered w ∧ v ∈ s'.pred w) :
    Searched g s s' v := by
  have hLt : s.n < (s.number v).n := Nat.lt_succ_self s.n
  have hNth : s'.nth s.n = v :=
    (hLooped.ext.nth_eq s.n hLt).trans (number_nth s v)
  have hParent : s'.parent v = s.parent v := by
    have hEq := hLooped.ext.parent_eq s.n hLt
    rw [number_nth] at hEq
    exact hEq
  refine ⟨hLooped.inLoop.valid,
    (number_extends s v).trans hLooped.ext,
    hLooped.inLoop.lt, hNth, hParent, ?_, ?_⟩
  · intro k hLe hLtK
    have hBelow := hLooped.inLoop.below k hLe hLtK
    rw [hNth] at hBelow
    exact hBelow
  · intro k hLe hLtK
    by_cases hEq : k = s.n
    · subst hEq
      intro w hEdge
      rw [hNth] at hEdge ⊢
      rcases hKnown w hEdge with ⟨⟨j, hJ, hEqJ⟩, hMem⟩
      refine ⟨hMem, j, hJ, hEqJ, ?_⟩
      intro hLater
      have hBelow := hLooped.inLoop.below j hLater.le hJ
      rw [hNth, hEqJ] at hBelow
      exact hBelow
    · refine hLooped.finished k ?_ hLtK
      change s.n + 1 ≤ k
      omega

end Search

open Search

section Calls

variable {g : FlowGraph}
variable {fuel m : Nat}
variable {s : Search}
variable {v w : jlong}

/- The specification of the search with some fuel. -/
def Searches
    (g : FlowGraph)
    (fuel : Nat) : Prop :=
  ∀ v s, Valid g s → Ready g s v →
    g.order ≤ s.n + fuel →
      ∃ s', dfs g.edges fuel v (s.numbering g.order) =
          some (s'.numbering g.order) ∧
        Searched g s s' v

theorem addPred_numbering
    (hRange : InRange g.order w) :
    (do
      let predW ← read (s.numbering g.order).pred w
      let pred ←
        write (s.numbering g.order).pred w (predW ++ [v])
      some { s.numbering g.order with pred := pred }) =
      some ((s.addPred w v).numbering g.order) := by
  simp [numbering, addPred, read_tabulate _ hRange,
    write_tabulate _ _ hRange]

theorem visitEdge_spec
    (hSearches : Searches g fuel)
    (hLoop : InLoop g s m)
    (hEdge : g.Edge (s.nth m) w)
    (hFuel : g.order ≤ s.n + fuel) :
    ∃ s', visitEdge (dfs g.edges fuel) (s.nth m)
          (s.numbering g.order) w =
        some (s'.numbering g.order) ∧
      Looped g s s' m ∧ s'.Numbered w ∧
        s.nth m ∈ s'.pred w := by
  have hRange := hEdge.target_inRange
  have hPos : 0 < s.n := Nat.zero_lt_of_lt hLoop.lt
  have hMem :
      ∀ t : Search, s.nth m ∈ (t.addPred w (s.nth m)).pred w := by
    intro t
    simp [Search.addPred]
  rcases hLoop.valid.isNew_eq hPos hRange with
    ⟨hTest, hNew⟩ | ⟨hTest, hNumbered⟩
  · have hReady := hLoop.ready hEdge hNew
    have hFuel' :
        g.order ≤ (s.setParent w (s.nth m)).n + fuel := hFuel
    rcases hSearches w _ (hLoop.valid.setParent hNew) hReady
        hFuel' with
      ⟨t, hDfs, hSearched⟩
    have hLooped := hLoop.search hNew hSearched
    have hNth : t.nth m = s.nth m :=
      hLooped.ext.nth_eq m hLoop.lt
    have hAdd := hLooped.inLoop.addPred (w := w)
      (by rw [hNth]; exact hEdge)
    rw [hNth] at hAdd
    refine ⟨t.addPred w (s.nth m), ?_, hLooped.trans hAdd,
      ?_, hMem t⟩
    · have hSet :
          write (s.numbering g.order).parent w (s.nth m) =
            some (s.setParent w (s.nth m) |>.numbering
              g.order).parent :=
        write_tabulate _ _ hRange
      unfold visitEdge
      rw [hTest]
      simp only [Option.bind_eq_bind, Option.bind_some,
        if_true, hSet]
      change (dfs g.edges fuel w
        ((s.setParent w (s.nth m)).numbering
          g.order)).bind _ = _
      rw [hDfs]
      exact addPred_numbering hRange
    · exact hAdd.ext.numbered
        ⟨s.n, hSearched.lt, hSearched.nth⟩
  · refine ⟨s.addPred w (s.nth m), ?_, hLoop.addPred hEdge,
      (addPred_extends s w _).numbered hNumbered, hMem s⟩
    unfold visitEdge
    rw [hTest]
    exact addPred_numbering hRange

/- The loop over a list of successors. -/
theorem visitEdges_spec
    (hSearches : Searches g fuel)
    (ws : jlongs)
    (hLoop : InLoop g s m)
    (hEdges : ∀ w ∈ ws, g.Edge (s.nth m) w)
    (hFuel : g.order ≤ s.n + fuel) :
    ∃ s', ws.foldlM
          (visitEdge (dfs g.edges fuel) (s.nth m))
          (s.numbering g.order) =
        some (s'.numbering g.order) ∧
      Looped g s s' m ∧
        ∀ w ∈ ws, s'.Numbered w ∧ s.nth m ∈ s'.pred w := by
  induction ws generalizing s with
  | nil =>
      exact ⟨s, rfl, Looped.refl hLoop, by simp⟩
  | cons w ws ih =>
      rcases visitEdge_spec hSearches hLoop
          (hEdges w List.mem_cons_self) hFuel with
        ⟨t, hVisit, hLooped, hNumbered, hMem⟩
      have hNth : t.nth m = s.nth m :=
        hLooped.ext.nth_eq m hLoop.lt
      have hLe := hLooped.ext.le
      have hEdges' : ∀ x ∈ ws, g.Edge (t.nth m) x := by
        intro x hMemX
        rw [hNth]
        exact hEdges x (List.mem_cons_of_mem w hMemX)
      rcases ih hLooped.inLoop hEdges' (by omega) with
        ⟨s', hFold, hLooped', hAll⟩
      rw [hNth] at hFold hAll
      refine ⟨s', ?_, hLooped.trans hLooped', ?_⟩
      · rw [List.foldlM_cons, hVisit]
        exact hFold
      · intro x hMemX
        rcases List.mem_cons.mp hMemX with hEq | hRest
        · subst hEq
          exact ⟨hLooped'.ext.numbered hNumbered,
            hLooped'.ext.pred_subset _ _ hMem⟩
        · exact hAll x hRest

/-
  The search numbers its vertex and finishes it.  The
  induction on the fuel follows the calls: each of them
  numbers one more vertex.
-/
theorem dfs_spec
    (g : FlowGraph)
    (fuel : Nat) :
    Searches g fuel := by
  induction fuel with
  | zero =>
      intro v s hValid hReady hFuel
      have hLt : s.n < g.order :=
        (hValid.number hReady).n_le_order
      omega
  | succ fuel ih =>
      intro v s hValid hReady hFuel
      have hRange : InRange g.order v := hReady.2.1
      have hLt : s.n < g.order :=
        (hValid.number hReady).n_le_order
      have hRangeN : InRange g.order (s.n : jlong) :=
        inRange_natCast.mpr hLt
      rcases exists_read hRange with ⟨ws, hWs⟩
      have hLoop := hReady.inLoop hValid
      have hEdges :
          ∀ w ∈ ws, g.Edge ((s.number v).nth s.n) w := by
        intro w hMem
        rw [number_nth]
        exact ⟨ws, hWs, hMem⟩
      have hFuel' : g.order ≤ (s.number v).n + fuel := by
        change g.order ≤ s.n + 1 + fuel
        omega
      rcases visitEdges_spec ih ws hLoop hEdges hFuel' with
        ⟨s', hFold, hLooped, hAll⟩
      rw [number_nth] at hFold hAll
      refine ⟨s', ?_, hLooped.searched ?_⟩
      · have hSemi :
            write (s.numbering g.order).semi v s.n =
              some ((s.number v).numbering g.order).semi :=
          write_tabulate _ _ hRange
        have hVertex :
            write (s.numbering g.order).vertex s.n v =
              some ((s.number v).numbering g.order).vertex :=
          write_tabulate _ _ hRangeN
        have hN : (s.numbering g.order).n = s.n := rfl
        unfold dfs
        rw [hN, hSemi, hVertex, hWs]
        exact hFold
      · intro w hEdge
        rcases hEdge with ⟨ws', hWs', hMem⟩
        rw [hWs] at hWs'
        cases hWs'
        exact hAll w hMem

end Calls

------------------------------------------------------------
-- The Finished Search
------------------------------------------------------------

namespace Search

/- A search that has finished all that it numbered. -/
structure Complete
    (g : FlowGraph)
    (s : Search) : Prop where
  valid : Valid g s
  pos : 0 < s.n
  finished : ∀ k, k < s.n → Finished g s k

/- The number of a vertex. -/
def num
    (s : Search)
    (v : jlong) : Nat :=
  (s.semi v).toNat

namespace Complete

variable {g : FlowGraph}
variable {s : Search}
variable {v w : jlong}
variable {k : Nat}

theorem num_nth
    (hComplete : Complete g s)
    (hLt : k < s.n) :
    s.num (s.nth k) = k := by
  rw [num, hComplete.valid.semi_nth k hLt]
  exact Int.toNat_natCast k

theorem num_lt
    (hComplete : Complete g s)
    (hNumbered : s.Numbered v) :
    s.num v < s.n := by
  rcases hNumbered with ⟨k, hLt, hEq⟩
  rw [← hEq, hComplete.num_nth hLt]
  exact hLt

theorem nth_num
    (hComplete : Complete g s)
    (hNumbered : s.Numbered v) :
    s.nth (s.num v) = v := by
  rcases hNumbered with ⟨k, hLt, hEq⟩
  rw [← hEq, hComplete.num_nth hLt]

theorem semi_eq
    (hComplete : Complete g s)
    (hNumbered : s.Numbered v) :
    s.semi v = s.num v := by
  rcases hNumbered with ⟨k, hLt, hEq⟩
  rw [← hEq, hComplete.valid.semi_nth k hLt,
    hComplete.num_nth hLt]

theorem inRange
    (hComplete : Complete g s)
    (hNumbered : s.Numbered v) :
    InRange g.order v := by
  rcases hNumbered with ⟨k, hLt, hEq⟩
  rw [← hEq]
  exact hComplete.valid.inRange k hLt

theorem root_numbered
    (hComplete : Complete g s) :
    s.Numbered 0 :=
  hComplete.valid.root_numbered hComplete.pos

theorem num_root
    (hComplete : Complete g s) :
    s.num 0 = 0 := by
  have hNum := hComplete.num_nth hComplete.pos
  rw [hComplete.valid.root hComplete.pos] at hNum
  exact hNum

theorem num_pos
    (hComplete : Complete g s)
    (hNumbered : s.Numbered v)
    (hRoot : v ≠ 0) :
    0 < s.num v := by
  rcases Nat.eq_zero_or_pos (s.num v) with hZero | hPos
  · have hNth := hComplete.nth_num hNumbered
    rw [hZero, hComplete.valid.root hComplete.pos] at hNth
    exact absurd hNth.symm hRoot
  · exact hPos

theorem parent_nth
    (hComplete : Complete g s)
    (hNumbered : s.Numbered w)
    (hRoot : w ≠ 0) :
    ∃ j, j < s.num w ∧ j < s.n ∧ s.parent w = s.nth j ∧
      g.Edge (s.nth j) w := by
  have hLt := hComplete.num_lt hNumbered
  rcases hComplete.valid.parent (s.num w) hLt
      (hComplete.num_pos hNumbered hRoot) with
    ⟨j, hJ, hEq, hEdge⟩
  rw [hComplete.nth_num hNumbered] at hEq hEdge
  exact ⟨j, hJ, hJ.trans hLt, hEq, hEdge⟩

/- The numbers and parents form a depth-first tree. -/
theorem depthFirstTree
    (hComplete : Complete g s) :
    DepthFirstTree g.Edge 0 s.num s.parent s.Numbered := by
  constructor
  · exact hComplete.root_numbered
  · exact hComplete.num_root
  · intro v w hNumbered hEdge
    rcases hNumbered with ⟨k, hLt, hEq⟩
    rw [← hEq] at hEdge
    rcases hComplete.finished k hLt w hEdge with
      ⟨_, j, hJ, hEqJ, _⟩
    exact ⟨j, hJ, hEqJ⟩
  · intro w hNumbered hRoot
    rcases hComplete.parent_nth hNumbered hRoot with
      ⟨j, _, hJ, hEq, _⟩
    exact ⟨j, hJ, hEq.symm⟩
  · intro w hNumbered hRoot
    rcases hComplete.parent_nth hNumbered hRoot with
      ⟨j, _, _, hEq, hEdge⟩
    rw [hEq]
    exact hEdge
  · intro w hNumbered hRoot
    rcases hComplete.parent_nth hNumbered hRoot with
      ⟨j, hLess, hJ, hEq, _⟩
    rw [hEq, hComplete.num_nth hJ]
    exact hLess
  · intro v w hV hW hEq
    rw [← hComplete.nth_num hV, hEq, hComplete.nth_num hW]
  · intro w k hNumbered hLt
    have hK : k < s.n :=
      hLt.trans (hComplete.num_lt hNumbered)
    exact ⟨s.nth k, ⟨k, hK, rfl⟩, hComplete.num_nth hK⟩
  · intro v w hNumbered hEdge hLess
    rcases hNumbered with ⟨k, hLt, hEq⟩
    subst hEq
    rcases hComplete.finished k hLt w hEdge with
      ⟨_, j, hJ, hEqJ, hForward⟩
    refine hForward ?_
    rw [hComplete.num_nth hLt, ← hEqJ,
      hComplete.num_nth hJ] at hLess
    exact hLess
  · intro v w hV hW hEq
    have hLt := hComplete.num_lt hW
    rw [hEq] at hLt
    have hNext := hComplete.valid.next (s.num v) hLt
    rw [← hEq, hComplete.nth_num hW,
      hComplete.nth_num hV] at hNext
    exact hNext

/- The predecessors found are those from reached vertices. -/
theorem mem_pred_iff
    (hComplete : Complete g s) :
    v ∈ s.pred w ↔ s.Numbered v ∧ g.Edge v w := by
  constructor
  · intro hMem
    exact hComplete.valid.pred v w hMem
  · intro hBoth
    rcases hBoth with ⟨⟨k, hLt, hEq⟩, hEdge⟩
    rw [← hEq] at hEdge ⊢
    exact (hComplete.finished k hLt w hEdge).1

theorem numbered_iff_reachable
    (hComplete : Complete g s) :
    s.Numbered v ↔ g.Reachable v := by
  constructor
  · intro hNumbered
    generalize hNum : s.num v = n
    induction n using Nat.strongRecOn generalizing v with
    | ind n ih =>
        by_cases hRoot : v = 0
        · rw [hRoot]
          exact FlowGraph.Reachable.root
        rcases hComplete.parent_nth hNumbered hRoot with
          ⟨j, hLess, hJ, _, hEdge⟩
        refine FlowGraph.Reachable.step ?_ hEdge
        exact ih j (by omega) ⟨j, hJ, rfl⟩
          (hComplete.num_nth hJ)
  · intro hReach
    induction hReach with
    | root => exact hComplete.root_numbered
    | step _ hEdge ih =>
        exact hComplete.depthFirstTree.closed _ _ ih hEdge

end Complete

/- The vectors before the search. -/
def initial : Search where
  n := 0
  semi := fun _ => 0
  parent := fun _ => 0
  vertex := fun _ => 0
  pred := fun _ => []

theorem initial_numbering
    (size : Nat) :
    initial.numbering size = initialNumbering size := by
  simp [initial, numbering, initialNumbering, zeros,
    tabulate_const]

theorem initial_not_numbered
    (v : jlong) :
    ¬ initial.Numbered v := by
  rintro ⟨k, hLt, _⟩
  exact absurd hLt (Nat.not_lt_zero k)

theorem initial_valid
    (g : FlowGraph) :
    Valid g initial := by
  have hNone : ∀ k, ¬ k < initial.n := Nat.not_lt_zero
  refine ⟨?_, ?_, ?_, ?_, ?_, ?_, ?_⟩
  · intro k hLt
    exact absurd hLt (hNone k)
  · intro k hLt
    exact absurd hLt (hNone k)
  · intro v _
    rfl
  · intro hPos
    exact absurd hPos (hNone 0)
  · intro k hLt
    exact absurd hLt (hNone k)
  · intro k hLt
    exact absurd hLt (hNone (k + 1))
  · intro v w hMem
    exact absurd hMem List.not_mem_nil

end Search

/- Enough fuel for every vertex lets the search finish. -/
theorem exists_dfs
    (g : FlowGraph)
    (fuel : Nat)
    (hFuel : g.order ≤ fuel) :
    ∃ s : Search,
      dfs g.edges fuel 0 (initialNumbering g.order) =
          some (s.numbering g.order) ∧
        s.Complete g := by
  have hReady : Ready g Search.initial 0 := by
    refine ⟨initial_not_numbered 0, g.root_inRange,
      fun _ => rfl, ?_⟩
    intro hPos
    exact absurd hPos (Nat.not_lt_zero 0)
  rcases dfs_spec g fuel 0 Search.initial (initial_valid g)
      hReady (by simpa [Search.initial] using hFuel) with
    ⟨s, hDfs, hSearched⟩
  rw [initial_numbering] at hDfs
  refine ⟨s, hDfs, hSearched.valid, hSearched.lt, ?_⟩
  intro k hLt
  exact hSearched.finished k (Nat.zero_le k) hLt

end DominatorTree

end MemoryAgent
