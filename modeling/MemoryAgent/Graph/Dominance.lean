import Mathlib.Order.Nat
import Mathlib.Order.WellFounded
import Mathlib.Tactic.Common

/-
  Dominators of a flow graph by way of semidominators.

  The graph is a relation on vertices with one root.  A
  depth-first tree of it numbers the reached vertices; a
  semidominator of a vertex is the least numbered source of
  a path whose inner vertices all have larger numbers.  The
  two cases of the semidominator theorem then locate the
  immediate dominator.

  Key definitions include:
    * `Dominance.Avoids`
    * `Dominance.IsIdom`
    * `Dominance.DepthFirstTree`
    * `Dominance.SemiPath`
    * `Dominance.IsSemi`

  Main results:
    * `Dominance.DepthFirstTree.exists_isSemi`
    * `Dominance.DepthFirstTree.semiPath_cases`
    * `Dominance.DepthFirstTree.isIdom_semi`
    * `Dominance.DepthFirstTree.isIdom_of_min`
    * `Dominance.IsIdom.dominates_iff`
-/

------------------------------------------------------------
-- Dominators
------------------------------------------------------------

namespace Dominance

variable {V : Type}

/- A path from the root to a vertex that avoids `d`. -/
inductive Avoids
    (E : V → V → Prop)
    (r d : V) : V → Prop
| root : r ≠ d → Avoids E r d r
| step {v w : V} :
    Avoids E r d v → E v w → w ≠ d → Avoids E r d w

/- Every path from the root to `w` goes through `d`. -/
def Dominates
    (E : V → V → Prop)
    (r d w : V) : Prop :=
  ¬ Avoids E r d w

/-
  `d` is a strict dominator of `w` that all other strict
  dominators of `w` dominate.
-/
structure IsIdom
    (E : V → V → Prop)
    (r d w : V) : Prop where
  ne : d ≠ w
  dominates : Dominates E r d w
  least :
    ∀ e, e ≠ w → Dominates E r e w → Dominates E r e d

section Dominators

variable {E : V → V → Prop}
variable {r d e v w : V}

theorem Avoids.ne
    (hAvoids : Avoids E r d w) :
    w ≠ d := by
  cases hAvoids with
  | root hNe => exact hNe
  | step _ _ hNe => exact hNe

theorem Dominates.refl
    (v : V) :
    Dominates E r v v :=
  fun hAvoids => hAvoids.ne rfl

theorem root_dominates
    (w : V) :
    Dominates E r r w := by
  intro hAvoids
  induction hAvoids with
  | root hNe => exact hNe rfl
  | step _ _ _ ih => exact ih

/-
  A path around `e` also avoids every vertex that `e`
  dominates.
-/
theorem Avoids.of_dominates
    (hAvoids : Avoids E r e w)
    (hDom : Dominates E r e d) :
    Avoids E r d w := by
  have hNe :
      ∀ {a : V}, Avoids E r e a → a ≠ d := by
    intro a hAvoidsA hEq
    subst hEq
    exact hDom hAvoidsA
  induction hAvoids with
  | root hRoot =>
      exact Avoids.root (hNe (Avoids.root hRoot))
  | step hPrefix hEdge hStep ih =>
      exact Avoids.step ih hEdge
        (hNe (Avoids.step hPrefix hEdge hStep))

theorem Dominates.trans
    (hLeft : Dominates E r e d)
    (hRight : Dominates E r d w) :
    Dominates E r e w :=
  fun hAvoids => hRight (hAvoids.of_dominates hLeft)

/-
  The dominators of a vertex are the vertex itself and the
  dominators of its immediate dominator.
-/
theorem IsIdom.dominates_iff
    (hIdom : IsIdom E r d w) :
    Dominates E r e w ↔ e = w ∨ Dominates E r e d := by
  constructor
  · intro hDom
    by_cases hEq : e = w
    · exact Or.inl hEq
    · exact Or.inr (hIdom.least e hEq hDom)
  · intro hCases
    rcases hCases with hEq | hDom
    · rw [hEq]
      exact Dominates.refl w
    · exact hDom.trans hIdom.dominates

end Dominators

------------------------------------------------------------
-- Depth-First Trees
------------------------------------------------------------

/- `Ancestor r parent a w`: parents lead from `w` to `a`. -/
inductive Ancestor
    (r : V)
    (parent : V → V)
    (a : V) : V → Prop
| refl : Ancestor r parent a a
| child {w : V} :
    w ≠ r →
    Ancestor r parent a (parent w) →
    Ancestor r parent a w

/-
  A spanning tree of the reached vertices that a depth-first
  search could have built: an edge to a larger number goes
  to a descendant, and the parent of the vertex numbered
  next is an ancestor of the vertex numbered last.
-/
structure DepthFirstTree
    (E : V → V → Prop)
    (r : V)
    (num : V → Nat)
    (parent : V → V)
    (reached : V → Prop) : Prop where
  root_reached : reached r
  num_root : num r = 0
  closed : ∀ v w, reached v → E v w → reached w
  parent_reached :
    ∀ w, reached w → w ≠ r → reached (parent w)
  parent_edge :
    ∀ w, reached w → w ≠ r → E (parent w) w
  parent_lt :
    ∀ w, reached w → w ≠ r → num (parent w) < num w
  inj :
    ∀ v w, reached v → reached w → num v = num w → v = w
  dense :
    ∀ w n, reached w → n < num w →
      ∃ v, reached v ∧ num v = n
  forward :
    ∀ v w, reached v → E v w → num v < num w →
      Ancestor r parent v w
  next :
    ∀ v w, reached v → reached w → num w = num v + 1 →
      Ancestor r parent (parent w) v

theorem Ancestor.trans
    {r a b c : V}
    {parent : V → V}
    (hLeft : Ancestor r parent a b)
    (hRight : Ancestor r parent b c) :
    Ancestor r parent a c := by
  induction hRight with
  | refl => exact hLeft
  | child hNe _ ih => exact Ancestor.child hNe ih

theorem Ancestor.of_ne
    {r a w : V}
    {parent : V → V}
    (hAnc : Ancestor r parent a w)
    (hNe : a ≠ w) :
    w ≠ r ∧ Ancestor r parent a (parent w) := by
  cases hAnc with
  | refl => exact absurd rfl hNe
  | child hRoot hParent => exact ⟨hRoot, hParent⟩

/- The child of a proper ancestor on the tree path. -/
theorem Ancestor.exists_child
    {r a w : V}
    {parent : V → V}
    (hAnc : Ancestor r parent a w)
    (hNe : a ≠ w) :
    ∃ c, c ≠ r ∧ parent c = a ∧ Ancestor r parent c w := by
  induction hAnc with
  | refl => exact absurd rfl hNe
  | @child w hRoot hAnc ih =>
      by_cases hEq : a = parent w
      · exact ⟨w, hRoot, hEq.symm, Ancestor.refl⟩
      · rcases ih hEq with ⟨c, hRootC, hParent, hAncC⟩
        exact ⟨c, hRootC, hParent,
          Ancestor.child hRoot hAncC⟩

namespace DepthFirstTree

variable {E : V → V → Prop}
variable {r : V}
variable {num : V → Nat}
variable {parent : V → V}
variable {reached : V → Prop}
variable {a b c d e s u v w x y z : V}

theorem reached_of_ancestor
    (hTree : DepthFirstTree E r num parent reached)
    (hAnc : Ancestor r parent a w)
    (hReached : reached w) :
    reached a := by
  induction hAnc with
  | refl => exact hReached
  | child hNe _ ih =>
      exact ih (hTree.parent_reached _ hReached hNe)

theorem num_le
    (hTree : DepthFirstTree E r num parent reached)
    (hAnc : Ancestor r parent a w)
    (hReached : reached w) :
    num a ≤ num w := by
  induction hAnc with
  | refl => exact le_rfl
  | child hNe _ ih =>
      have hLt := hTree.parent_lt _ hReached hNe
      have hLe :=
        ih (hTree.parent_reached _ hReached hNe)
      omega

theorem num_lt
    (hTree : DepthFirstTree E r num parent reached)
    (hAnc : Ancestor r parent a w)
    (hReached : reached w)
    (hNe : a ≠ w) :
    num a < num w := by
  have hLe := hTree.num_le hAnc hReached
  have hNumNe : num a ≠ num w := fun hEq =>
    hNe (hTree.inj a w
      (hTree.reached_of_ancestor hAnc hReached)
      hReached hEq)
  omega

theorem num_pos
    (hTree : DepthFirstTree E r num parent reached)
    (hReached : reached w)
    (hNe : w ≠ r) :
    0 < num w := by
  have hLt := hTree.parent_lt w hReached hNe
  omega

/-
  The descendants of a vertex have consecutive numbers.  The
  induction goes down from the number of a descendant.
-/
theorem ancestor_of_between
    (hTree : DepthFirstTree E r num parent reached)
    (hReached : reached b)
    (hReachedC : reached c)
    (hAnc : Ancestor r parent a c)
    (hLeft : num a ≤ num b)
    (hRight : num b ≤ num c) :
    Ancestor r parent a b := by
  generalize hGap : num c - num b = gap
  induction gap generalizing c with
  | zero =>
      have hEq : b = c :=
        hTree.inj b c hReached hReachedC (by omega)
      rw [hEq]
      exact hAnc
  | succ gap ih =>
      have hNe : a ≠ c := by
        intro hEq
        rw [hEq] at hLeft
        omega
      rcases hAnc.of_ne hNe with ⟨_, hParent⟩
      rcases hTree.dense c (num c - 1) hReachedC
          (by omega) with
        ⟨p, hReachedP, hNumP⟩
      have hNext : Ancestor r parent (parent c) p :=
        hTree.next p c hReachedP hReachedC (by omega)
      exact ih hReachedP (hParent.trans hNext)
        (by omega) (by omega)

/- An edge leaves the descendants of `x` only downwards. -/
theorem ancestor_step
    (hTree : DepthFirstTree E r num parent reached)
    (hReached : reached y)
    (hAnc : Ancestor r parent x y)
    (hEdge : E y z)
    (hLe : num x ≤ num z) :
    Ancestor r parent x z := by
  by_cases hLt : num y < num z
  · exact hAnc.trans
      (hTree.forward y z hReached hEdge hLt)
  · exact hTree.ancestor_of_between
      (hTree.closed y z hReached hEdge) hReached hAnc hLe
      (by omega)

/- Two ancestors of one vertex are ancestors in order. -/
theorem ancestor_comparable
    (hTree : DepthFirstTree E r num parent reached)
    (hReached : reached w)
    (hLeft : Ancestor r parent a w)
    (hRight : Ancestor r parent b w)
    (hLe : num a ≤ num b) :
    Ancestor r parent a b :=
  hTree.ancestor_of_between
    (hTree.reached_of_ancestor hRight hReached) hReached
    hLeft hLe (hTree.num_le hRight hReached)

theorem ancestor_root
    (hTree : DepthFirstTree E r num parent reached)
    (hReached : reached w) :
    Ancestor r parent r w := by
  generalize hNum : num w = n
  induction n using Nat.strongRecOn generalizing w with
  | ind n ih =>
      by_cases hEq : w = r
      · rw [hEq]
        exact Ancestor.refl
      · refine Ancestor.child hEq ?_
        have hLt := hTree.parent_lt w hReached hEq
        exact ih _ (by omega)
          (hTree.parent_reached w hReached hEq) rfl

/- The tree path below `x` avoids a vertex numbered less. -/
theorem avoids_below
    (hTree : DepthFirstTree E r num parent reached)
    (hAnc : Ancestor r parent x w)
    (hReached : reached w)
    (hLt : num d < num x)
    (hAvoids : Avoids E r d x) :
    Avoids E r d w := by
  induction hAnc with
  | refl => exact hAvoids
  | @child w hNe hAnc ih =>
      have hReachedP := hTree.parent_reached w hReached hNe
      have hLe :=
        hTree.num_le (Ancestor.child hNe hAnc) hReached
      refine Avoids.step (ih hReachedP)
        (hTree.parent_edge w hReached hNe) ?_
      intro hEq
      rw [hEq] at hLe
      omega

/- A vertex that dominates another is its ancestor. -/
theorem ancestor_of_dominates
    (hTree : DepthFirstTree E r num parent reached)
    (hReached : reached w)
    (hDom : Dominates E r d w) :
    Ancestor r parent d w := by
  have hPath :
      ∀ v, Ancestor r parent r v → reached v →
        ¬ Ancestor r parent d v → Avoids E r d v := by
    intro v hAnc
    induction hAnc with
    | refl =>
        intro _ hNot
        refine Avoids.root ?_
        intro hEq
        exact hNot (hEq ▸ Ancestor.refl)
    | @child v hNe _ ih =>
        intro hReachedV hNot
        refine Avoids.step
          (ih (hTree.parent_reached v hReachedV hNe)
            (fun hAncP => hNot (Ancestor.child hNe hAncP)))
          (hTree.parent_edge v hReachedV hNe) ?_
        intro hEq
        exact hNot (hEq ▸ Ancestor.refl)
  by_contra hNot
  exact hDom
    (hPath w (hTree.ancestor_root hReached) hReached hNot)

end DepthFirstTree

------------------------------------------------------------
-- Semidominators
------------------------------------------------------------

/-
  A path from `x` to `v` whose inner vertices have numbers
  above the number of `v`.
-/
inductive SemiPath
    (E : V → V → Prop)
    (num : V → Nat)
    (v : V) : V → Prop
| edge {x : V} : E x v → SemiPath E num v x
| step {x y : V} :
    E x y → num v < num y → SemiPath E num v y →
      SemiPath E num v x

/- The least numbered source of such a path. -/
structure IsSemi
    (E : V → V → Prop)
    (num : V → Nat)
    (reached : V → Prop)
    (s v : V) : Prop where
  source : reached s
  path : SemiPath E num v s
  least :
    ∀ x, reached x → SemiPath E num v x → num s ≤ num x

namespace DepthFirstTree

variable {E : V → V → Prop}
variable {r : V}
variable {num : V → Nat}
variable {parent : V → V}
variable {reached : V → Prop}
variable {a b c d e s t u v w x y z : V}

theorem semiPath_ancestor
    (hTree : DepthFirstTree E r num parent reached)
    (hReached : reached x)
    (hPath : SemiPath E num v x)
    (hLe : num x ≤ num v) :
    Ancestor r parent x v := by
  have hFrom :
      ∀ y, SemiPath E num v y → reached y →
        Ancestor r parent x y → Ancestor r parent x v := by
    intro y hPathY
    induction hPathY with
    | edge hEdge =>
        intro hReachedY hAnc
        exact hTree.ancestor_step hReachedY hAnc hEdge hLe
    | step hEdge hLt _ ih =>
        intro hReachedY hAnc
        exact ih (hTree.closed _ _ hReachedY hEdge)
          (hTree.ancestor_step hReachedY hAnc hEdge
            (by omega))
  exact hFrom x hPath hReached Ancestor.refl

theorem exists_isSemi
    (hTree : DepthFirstTree E r num parent reached)
    (hReached : reached w)
    (hNe : w ≠ r) :
    ∃ s, IsSemi E num reached s w := by
  have hSource :
      ∃ x, reached x ∧ SemiPath E num w x :=
    ⟨parent w, hTree.parent_reached w hReached hNe,
      SemiPath.edge (hTree.parent_edge w hReached hNe)⟩
  rcases (measure num).wf.has_min
      {x | reached x ∧ SemiPath E num w x} hSource with
    ⟨s, ⟨hReachedS, hPath⟩, hMin⟩
  refine ⟨s, hReachedS, hPath, ?_⟩
  intro x hReachedX hPathX
  exact Nat.not_lt.mp (hMin x ⟨hReachedX, hPathX⟩)

theorem semi_lt
    (hTree : DepthFirstTree E r num parent reached)
    (hReached : reached w)
    (hNe : w ≠ r)
    (hSemi : IsSemi E num reached s w) :
    num s < num w := by
  have hLe :=
    hSemi.least (parent w)
      (hTree.parent_reached w hReached hNe)
      (SemiPath.edge (hTree.parent_edge w hReached hNe))
  have hLt := hTree.parent_lt w hReached hNe
  omega

theorem semi_ancestor
    (hTree : DepthFirstTree E r num parent reached)
    (hReached : reached w)
    (hNe : w ≠ r)
    (hSemi : IsSemi E num reached s w) :
    Ancestor r parent s w :=
  hTree.semiPath_ancestor hSemi.source hSemi.path
    (hTree.semi_lt hReached hNe hSemi).le

/- A tree path of large numbers extends a semipath. -/
theorem semiPath_prepend
    (hTree : DepthFirstTree E r num parent reached)
    (hAnc : Ancestor r parent u v)
    (hReached : reached v)
    (hLt : num w < num u)
    (hPath : SemiPath E num w v) :
    SemiPath E num w u := by
  induction hAnc with
  | refl => exact hPath
  | @child v hNe hAnc ih =>
      have hLe :=
        hTree.num_le (Ancestor.child hNe hAnc) hReached
      exact ih (hTree.parent_reached v hReached hNe)
        (SemiPath.step
          (hTree.parent_edge v hReached hNe)
          (by omega) hPath)

theorem semiPath_trans
    (hLt : num w < num u)
    (hLeft : SemiPath E num u x)
    (hRight : SemiPath E num w u) :
    SemiPath E num w x := by
  induction hLeft with
  | edge hEdge => exact SemiPath.step hEdge hLt hRight
  | step hEdge hLtY _ ih =>
      exact SemiPath.step hEdge (by omega) ih

/-
  A semipath to `u`, the tree path from `u` down to `v` and
  an edge from `v` form a semipath.
-/
theorem semiPath_compose
    (hTree : DepthFirstTree E r num parent reached)
    (hReached : reached v)
    (hPath : SemiPath E num u x)
    (hLt : num w < num u)
    (hAnc : Ancestor r parent u v)
    (hEdge : E v w) :
    SemiPath E num w x :=
  semiPath_trans hLt hPath
    (hTree.semiPath_prepend hAnc hReached hLt
      (SemiPath.edge hEdge))

/-
  Conversely, every semipath is an edge or is formed so.
  This is why the candidates that the algorithm inspects
  are enough.
-/
theorem semiPath_cases
    (hTree : DepthFirstTree E r num parent reached)
    (hReached : reached x)
    (hPath : SemiPath E num w x) :
    E x w ∨
      ∃ u v, reached v ∧ num w < num u ∧
        Ancestor r parent u v ∧ E v w ∧
          SemiPath E num u x := by
  induction hPath with
  | edge hEdge => exact Or.inl hEdge
  | @step x y hEdge hLt _ ih =>
      have hReachedY := hTree.closed x y hReached hEdge
      refine Or.inr ?_
      rcases ih hReachedY with
        hLast | ⟨u, v, hReachedV, hLtU, hAnc, hLast, hSub⟩
      · exact ⟨y, y, hReachedY, hLt, Ancestor.refl, hLast,
          SemiPath.edge hEdge⟩
      · by_cases hOrder : num u < num y
        · exact ⟨u, v, hReachedV, hLtU, hAnc, hLast,
            SemiPath.step hEdge hOrder hSub⟩
        · -- `y` is then an ancestor of `u` itself.
          have hAncY : Ancestor r parent y u :=
            hTree.semiPath_ancestor hReachedY hSub
              (by omega)
          exact ⟨y, v, hReachedV, hLt, hAncY.trans hAnc,
            hLast, SemiPath.edge hEdge⟩

theorem avoids_semiPath
    (hPath : SemiPath E num w x)
    (hLt : num d < num w)
    (hAvoids : Avoids E r d x) :
    Avoids E r d w := by
  have hNe : ∀ y, num w ≤ num y → y ≠ d := by
    intro y hLe hEq
    rw [hEq] at hLe
    omega
  induction hPath with
  | edge hEdge =>
      exact Avoids.step hAvoids hEdge (hNe w le_rfl)
  | step hEdge hLtY _ ih =>
      exact ih
        (Avoids.step hAvoids hEdge (hNe _ hLtY.le))

/- Strict dominators dominate the semidominator. -/
theorem dominates_semi
    (hTree : DepthFirstTree E r num parent reached)
    (hReached : reached w)
    (hSemi : IsSemi E num reached s w)
    (hDom : Dominates E r d w)
    (hNe : d ≠ w) :
    Dominates E r d s := by
  intro hAvoids
  have hAnc := hTree.ancestor_of_dominates hReached hDom
  exact hDom
    (avoids_semiPath hSemi.path
      (hTree.num_lt hAnc hReached hNe) hAvoids)

theorem num_le_semi
    (hTree : DepthFirstTree E r num parent reached)
    (hReached : reached w)
    (hSemi : IsSemi E num reached s w)
    (hDom : Dominates E r d w)
    (hNe : d ≠ w) :
    num d ≤ num s :=
  hTree.num_le
    (hTree.ancestor_of_dominates hSemi.source
      (hTree.dominates_semi hReached hSemi hDom hNe))
    hSemi.source

/-
  A path around `d` to a vertex with a larger number enters
  the larger numbers, for the last time, along a semipath.
-/
theorem avoids_crossing
    (hTree : DepthFirstTree E r num parent reached)
    (hReached : reached d)
    (hAvoids : Avoids E r d z) :
    reached z ∧
      (num z < num d ∨
        ∃ x y, reached x ∧ Avoids E r d x ∧
          num x < num d ∧ num d < num y ∧
            Ancestor r parent y z ∧ SemiPath E num y x) := by
  induction hAvoids with
  | root hNe =>
      refine ⟨hTree.root_reached, Or.inl ?_⟩
      rw [hTree.num_root]
      exact hTree.num_pos hReached (Ne.symm hNe)
  | @step b c hAvoidsB hEdge hNe ih =>
      rcases ih with ⟨hReachedB, hCases⟩
      have hReachedC := hTree.closed b c hReachedB hEdge
      refine ⟨hReachedC, ?_⟩
      have hNumNe : num c ≠ num d := fun hEq =>
        hNe (hTree.inj c d hReachedC hReached hEq)
      by_cases hLow : num c < num d
      · exact Or.inl hLow
      have hHigh : num d < num c := by omega
      refine Or.inr ?_
      rcases hCases with
        hLowB | ⟨x, y, hReachedX, hAvoidsX, hX, hY, hAnc,
          hPath⟩
      · exact ⟨b, c, hReachedB, hAvoidsB, hLowB, hHigh,
          Ancestor.refl, SemiPath.edge hEdge⟩
      · by_cases hOrder : num y ≤ num c
        · exact ⟨x, y, hReachedX, hAvoidsX, hX, hY,
            hTree.ancestor_step hReachedB hAnc hEdge hOrder,
            hPath⟩
        · exact ⟨x, c, hReachedX, hAvoidsX, hX, hHigh,
            Ancestor.refl,
            hTree.semiPath_compose hReachedB hPath
              (by omega) hAnc hEdge⟩

------------------------------------------------------------
-- Immediate Dominators
------------------------------------------------------------

/-
  If no vertex on the tree path below the semidominator has
  a smaller semidominator, it is the immediate dominator.
-/
theorem isIdom_semi
    (hTree : DepthFirstTree E r num parent reached)
    (hReached : reached w)
    (hNe : w ≠ r)
    (hSemi : IsSemi E num reached s w)
    (hMin :
      ∀ u t, Ancestor r parent u w → num s < num u →
        IsSemi E num reached t u → num s ≤ num t) :
    IsIdom E r s w := by
  have hLt := hTree.semi_lt hReached hNe hSemi
  refine ⟨?_, ?_, ?_⟩
  · intro hEq
    rw [hEq] at hLt
    omega
  · intro hAvoids
    rcases hTree.avoids_crossing hSemi.source hAvoids with
      ⟨_, hLow | ⟨x, y, hReachedX, _, hX, hY, hAnc, hPath⟩⟩
    · omega
    · have hReachedY :=
        hTree.reached_of_ancestor hAnc hReached
      have hNeY : y ≠ r := by
        intro hEq
        rw [hEq, hTree.num_root] at hY
        omega
      rcases hTree.exists_isSemi hReachedY hNeY with ⟨t, hSemiY⟩
      have hLeft := hMin y t hAnc hY hSemiY
      have hRight := hSemiY.least x hReachedX hPath
      omega
  · intro e hNeE hDom
    exact hTree.dominates_semi hReached hSemi hDom hNeE

/-
  Otherwise the immediate dominator is that of a vertex on
  this path with the least semidominator.
-/
theorem isIdom_of_min
    (hTree : DepthFirstTree E r num parent reached)
    (hReached : reached w)
    (hNe : w ≠ r)
    (hSemi : IsSemi E num reached s w)
    (hAnc : Ancestor r parent u w)
    (hBelow : num s < num u)
    (hSemiU : IsSemi E num reached t u)
    (hLess : num t < num s)
    (hMin :
      ∀ y q, Ancestor r parent y w → num s < num y →
        IsSemi E num reached q y → num t ≤ num q)
    (hIdom : IsIdom E r d u) :
    IsIdom E r d w := by
  have hReachedU := hTree.reached_of_ancestor hAnc hReached
  have hLtW := hTree.semi_lt hReached hNe hSemi
  have hNumD : num d ≤ num t :=
    hTree.num_le_semi hReachedU hSemiU hIdom.dominates
      hIdom.ne
  have hReachedD : reached d :=
    hTree.reached_of_ancestor
      (hTree.ancestor_of_dominates hReachedU
        hIdom.dominates)
      hReachedU
  refine ⟨?_, ?_, ?_⟩
  · intro hEq
    rw [hEq] at hNumD
    omega
  · intro hAvoids
    rcases hTree.avoids_crossing hReachedD hAvoids with
      ⟨_, hLow |
        ⟨x, y, hReachedX, hAvoidsX, hX, hY, hAncY, hPath⟩⟩
    · omega
    · have hReachedY :=
        hTree.reached_of_ancestor hAncY hReached
      have hNeY : y ≠ r := by
        intro hEq
        rw [hEq, hTree.num_root] at hY
        omega
      rcases hTree.exists_isSemi hReachedY hNeY with ⟨q, hSemiY⟩
      have hQ := hSemiY.least x hReachedX hPath
      have hHigh : num y ≤ num s := by
        by_contra hNot
        have hMinY := hMin y q hAncY (by omega) hSemiY
        omega
      -- `y` lies above `u`, so the path continues to `u`.
      have hAncU : Ancestor r parent y u :=
        hTree.ancestor_comparable hReached hAncY hAnc
          (by omega)
      exact hIdom.dominates
        (hTree.avoids_below hAncU hReachedU hY
          (avoids_semiPath hPath hY hAvoidsX))
  · intro e hNeE hDom
    have hNumE : num e ≤ num s :=
      hTree.num_le_semi hReached hSemi hDom hNeE
    have hNeU : e ≠ u := by
      intro hEq
      rw [hEq] at hNumE
      omega
    refine hIdom.least e hNeU ?_
    intro hAvoids
    exact hDom
      (hTree.avoids_below hAnc hReached (by omega) hAvoids)

end DepthFirstTree

end Dominance
