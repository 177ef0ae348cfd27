import Mathlib.Data.Finset.Card
import Mathlib.Logic.Function.Basic
import Mathlib.Logic.Relation
import Mathlib.Order.Nat
import Mathlib.Tactic.Common

/-
  Forests with path compression and minimal labels.

  A forest grows by links.  Beside the links every node has
  an ancestor that may lie further up, and a label that has
  the least key on the path to this ancestor.  Compressing a
  path moves ancestors up and keeps the labels minimal.

  Key definitions include:
    * `PathCompression.Up`
    * `PathCompression.Ranked`
    * `PathCompression.Compressed`
    * `PathCompression.RootOf`
    * `PathCompression.Depth`

  Main results:
    * `PathCompression.Compressed.link`
    * `PathCompression.Compressed.shortcut`
    * `PathCompression.Compressed.change_keys`
    * `PathCompression.Compressed.rootOf_iff`
    * `PathCompression.Depth.link`
    * `PathCompression.Depth.lt_card`
-/

------------------------------------------------------------
-- Forests
------------------------------------------------------------

namespace PathCompression

variable {V : Type}

/- `Up parent v u`: links lead from `v` up to `u`. -/
def Up
    (parent : V → Option V)
    (v u : V) : Prop :=
  Relation.ReflTransGen (fun a b => parent a = some b) v u

/- Ranks decrease along links, so that links do not cycle. -/
def Ranked
    (parent : V → Option V)
    (rank : V → Nat) : Prop :=
  ∀ v p, parent v = some p → rank p < rank v

section Paths

variable {parent : V → Option V}
variable {rank : V → Nat}
variable {u v w : V}

theorem Up.refl
    (v : V) :
    Up parent v v :=
  Relation.ReflTransGen.refl

theorem Up.single
    (hParent : parent v = some u) :
    Up parent v u :=
  Relation.ReflTransGen.single hParent

theorem Up.trans
    (hLeft : Up parent v u)
    (hRight : Up parent u w) :
    Up parent v w :=
  Relation.ReflTransGen.trans hLeft hRight

theorem Up.total
    (hLeft : Up parent v u)
    (hRight : Up parent v w) :
    Up parent u w ∨ Up parent w u := by
  refine Relation.ReflTransGen.total_of_right_unique
    ?_ hLeft hRight
  intro a b c hB hC
  exact Option.some.inj (hB.symm.trans hC)

theorem Up.rank_le
    (hUp : Up parent v u)
    (hRanked : Ranked parent rank) :
    rank u ≤ rank v := by
  induction hUp with
  | refl => exact le_rfl
  | tail _ hStep ih =>
      exact (hRanked _ _ hStep).le.trans ih

/- A proper step up leaves a node that is no root. -/
theorem Up.parent_of_ne
    (hUp : Up parent v u)
    (hNe : v ≠ u) :
    ∃ p, parent v = some p ∧ Up parent p u := by
  rcases Relation.ReflTransGen.cases_head hUp with
    hEq | ⟨p, hParent, hRest⟩
  · exact absurd hEq hNe
  · exact ⟨p, hParent, hRest⟩

theorem Up.rank_lt
    (hUp : Up parent v u)
    (hRanked : Ranked parent rank)
    (hNe : v ≠ u) :
    rank u < rank v := by
  rcases hUp.parent_of_ne hNe with ⟨p, hParent, hRest⟩
  exact (hRest.rank_le hRanked).trans_lt
    (hRanked v p hParent)

theorem Up.eq_of_root
    (hUp : Up parent v u)
    (hRoot : parent v = none) :
    v = u := by
  by_contra hNe
  rcases hUp.parent_of_ne hNe with ⟨p, hParent, _⟩
  rw [hRoot] at hParent
  cases hParent

end Paths

------------------------------------------------------------
-- Compressed Paths
------------------------------------------------------------

/-
  The compressed forest `ancestor` and its labels against
  the forest of the links alone.  The label of a node has
  the least key on the path from the node up to, and without,
  its ancestor.
-/
structure Compressed
    (parent ancestor : V → Option V)
    (label : V → V)
    (key : V → Int) : Prop where
  root :
    ∀ v, ancestor v = none ↔ parent v = none
  label_root : ∀ v, parent v = none → label v = v
  up :
    ∀ v a, ancestor v = some a → Up parent v a ∧ v ≠ a
  label_up :
    ∀ v a, ancestor v = some a →
      Up parent v (label v) ∧ Up parent (label v) a ∧
        label v ≠ a
  label_le :
    ∀ v a u, ancestor v = some a → Up parent v u →
      Up parent u a → u ≠ a → key (label v) ≤ key u

namespace Compressed

variable {parent ancestor : V → Option V}
variable {label : V → V}
variable {key : V → Int}
variable {rank : V → Nat}
variable {a b u v w : V}

/- A forest without links. -/
theorem init
    (key : V → Int) :
    Compressed (fun _ => none) (fun _ => none)
      (fun v : V => v) key := by
  constructor
  · simp
  · simp
  · simp
  · simp
  · simp

/- Keys of roots may change: no label path contains one. -/
theorem change_keys
    (hForest : Compressed parent ancestor label key)
    (key' : V → Int)
    (hSame :
      ∀ u, parent u ≠ none → key' u = key u) :
    Compressed parent ancestor label key' := by
  have hInner :
      ∀ u a, Up parent u a → u ≠ a → key' u = key u := by
    intro u a hUp hNe
    rcases hUp.parent_of_ne hNe with ⟨p, hParent, _⟩
    refine hSame u ?_
    rw [hParent]
    exact Option.some_ne_none p
  refine ⟨hForest.root, hForest.label_root, hForest.up,
    hForest.label_up, ?_⟩
  intro v a u hAnc hUp hUpA hNe
  rcases hForest.label_up v a hAnc with
    ⟨_, hLabelUp, hLabelNe⟩
  rw [hInner u a hUpA hNe,
    hInner (label v) a hLabelUp hLabelNe]
  exact hForest.label_le v a u hAnc hUp hUpA hNe

theorem label_le_root
    (hForest : Compressed parent ancestor label key)
    (hAnc : ancestor v = some a)
    (hRoot : parent a = none)
    (hUp : Up parent v u)
    (hInner : parent u ≠ none) :
    key (label v) ≤ key u := by
  have hNe : u ≠ a := by
    intro hEq
    rw [hEq] at hInner
    exact hInner hRoot
  refine hForest.label_le v a u hAnc hUp ?_ hNe
  rcases hUp.total (hForest.up v a hAnc).1 with
    hBelow | hAbove
  · exact hBelow
  · exact absurd (hAbove.eq_of_root hRoot).symm hNe

/-
  One step of path compression: the label takes over a
  smaller key of the ancestor's label, and the ancestor
  moves on to its own ancestor.
-/
theorem shortcut
    [DecidableEq V]
    (hForest : Compressed parent ancestor label key)
    (hRanked : Ranked parent rank)
    (hAnc : ancestor v = some a)
    (hNext : ancestor a = some b) :
    Compressed parent
      (Function.update ancestor v (some b))
      (if key (label a) < key (label v) then
        Function.update label v (label a)
      else label)
      key := by
  rcases hForest.up v a hAnc with ⟨hUpA, hNeA⟩
  rcases hForest.up a b hNext with ⟨hUpB, hNeB⟩
  rcases hForest.label_up v a hAnc with
    ⟨hLabelV, hLabelA, hLabelNe⟩
  rcases hForest.label_up a b hNext with
    ⟨hLabelA', hLabelB, hLabelNe'⟩
  have hInner : parent v ≠ none := by
    intro hRoot
    exact hNeA (hUpA.eq_of_root hRoot)
  have hRankA := hUpA.rank_lt hRanked hNeA
  have hRankB := hUpB.rank_lt hRanked hNeB
  have hRankL := hLabelA.rank_lt hRanked hLabelNe
  have hOther :
      ∀ x, x ≠ v →
        (if key (label a) < key (label v) then
          Function.update label v (label a)
        else label) x = label x := by
    intro x hNe
    split
    · exact Function.update_of_ne hNe _ _
    · rfl
  have hSelf :
      (if key (label a) < key (label v) then
          Function.update label v (label a)
        else label) v =
        if key (label a) < key (label v) then label a
        else label v := by
    split
    · exact Function.update_self v _ _
    · rfl
  constructor
  · intro x
    by_cases hEq : x = v
    · subst hEq
      simp [hInner]
    · rw [Function.update_of_ne hEq]
      exact hForest.root x
  · intro x hRoot
    have hNe : x ≠ v := by
      intro hEq
      exact hInner (hEq ▸ hRoot)
    rw [hOther x hNe]
    exact hForest.label_root x hRoot
  · intro x c hAncX
    by_cases hEq : x = v
    · subst hEq
      rw [Function.update_self] at hAncX
      cases hAncX
      refine ⟨hUpA.trans hUpB, ?_⟩
      intro hEq
      rw [← hEq] at hRankB
      omega
    · rw [Function.update_of_ne hEq] at hAncX
      exact hForest.up x c hAncX
  · intro x c hAncX
    by_cases hEq : x = v
    · subst hEq
      rw [Function.update_self] at hAncX
      cases hAncX
      rw [hSelf]
      split
      · exact ⟨hUpA.trans hLabelA', hLabelB, hLabelNe'⟩
      · refine ⟨hLabelV, hLabelA.trans hUpB, ?_⟩
        intro hEq
        rw [hEq] at hRankL
        omega
    · rw [Function.update_of_ne hEq] at hAncX
      rw [hOther x hEq]
      exact hForest.label_up x c hAncX
  · intro x c u hAncX hUp hUpC hNe
    by_cases hEq : x = v
    · subst hEq
      rw [Function.update_self] at hAncX
      cases hAncX
      rw [hSelf]
      -- `u` lies below `a` or from `a` on.
      have hCases :
          key (label x) ≤ key u ∨ key (label a) ≤ key u := by
        rcases hUp.total hUpA with hBelow | hAbove
        · by_cases hEqA : u = a
          · refine Or.inr
              (hForest.label_le a b u hNext ?_ hUpC hNe)
            rw [hEqA]
            exact Up.refl a
          · exact Or.inl
              (hForest.label_le x a u hAnc hUp hBelow hEqA)
        · exact Or.inr
            (hForest.label_le a b u hNext hAbove hUpC hNe)
      split
      · omega
      · omega
    · rw [Function.update_of_ne hEq] at hAncX
      rw [hOther x hEq]
      exact hForest.label_le x c u hAncX hUp hUpC hNe

end Compressed

------------------------------------------------------------
-- Links
------------------------------------------------------------

section Links

variable [DecidableEq V]
variable {parent ancestor : V → Option V}
variable {label : V → V}
variable {key : V → Int}
variable {rank : V → Nat}
variable {a u v w x : V}

theorem Up.of_link
    (hRoot : parent w = none)
    (hUp : Up parent x u) :
    Up (Function.update parent w (some v)) x u := by
  induction hUp with
  | refl => exact Up.refl x
  | @tail b c _ hStep ih =>
      have hNe : b ≠ w := by
        intro hEq
        rw [hEq, hRoot] at hStep
        cases hStep
      refine ih.trans (Up.single ?_)
      rw [Function.update_of_ne hNe]
      exact hStep

/- Below an old ancestor the links have not changed. -/
theorem Up.before_link
    (hRoot : parent w = none)
    (hRanked :
      Ranked (Function.update parent w (some v)) rank)
    (hOld : Up parent x a)
    (hUp : Up (Function.update parent w (some v)) x u)
    (hUpA : Up (Function.update parent w (some v)) u a)
    (hNe : u ≠ a) :
    Up parent x u ∧ Up parent u a := by
  induction hOld using Relation.ReflTransGen.head_induction_on
  with
  | refl =>
      have hLt := hUpA.rank_lt hRanked hNe
      have hLe := hUp.rank_le hRanked
      omega
  | @head x y hStep hRest ih =>
      by_cases hEq : x = u
      · subst hEq
        exact ⟨Up.refl x,
          Relation.ReflTransGen.head hStep hRest⟩
      · have hNeW : x ≠ w := by
          intro hEqW
          rw [hEqW, hRoot] at hStep
          cases hStep
        rcases hUp.parent_of_ne hEq with
          ⟨p, hParent, hUpP⟩
        rw [Function.update_of_ne hNeW, hStep] at hParent
        cases hParent
        rcases ih hUpP with ⟨hLeft, hRight⟩
        exact ⟨Relation.ReflTransGen.head hStep hLeft,
          hRight⟩

/- Linking the root `w` below `v`. -/
theorem Compressed.link
    (hForest : Compressed parent ancestor label key)
    (hRoot : parent w = none)
    (hRanked :
      Ranked (Function.update parent w (some v)) rank) :
    Compressed (Function.update parent w (some v))
      (Function.update ancestor w (some v)) label key := by
  have hLink :
      Function.update parent w (some v) w = some v :=
    Function.update_self w _ _
  have hLt : rank v < rank w := hRanked w v hLink
  have hAncW : ancestor w = none :=
    (hForest.root w).mpr hRoot
  constructor
  · intro x
    by_cases hEq : x = w
    · simp [hEq]
    · rw [Function.update_of_ne hEq,
        Function.update_of_ne hEq]
      exact hForest.root x
  · intro x hRootX
    have hNe : x ≠ w := by
      intro hEq
      rw [hEq, hLink] at hRootX
      cases hRootX
    rw [Function.update_of_ne hNe] at hRootX
    exact hForest.label_root x hRootX
  · intro x a hAnc
    by_cases hEq : x = w
    · subst hEq
      rw [Function.update_self] at hAnc
      cases hAnc
      refine ⟨Up.single hLink, ?_⟩
      intro hEq
      rw [← hEq] at hLt
      omega
    · rw [Function.update_of_ne hEq] at hAnc
      rcases hForest.up x a hAnc with ⟨hUp, hNe⟩
      exact ⟨hUp.of_link hRoot, hNe⟩
  · intro x a hAnc
    by_cases hEq : x = w
    · subst hEq
      rw [Function.update_self] at hAnc
      cases hAnc
      rw [hForest.label_root x hRoot]
      refine ⟨Up.refl x, Up.single hLink, ?_⟩
      intro hEq
      rw [← hEq] at hLt
      omega
    · rw [Function.update_of_ne hEq] at hAnc
      rcases hForest.label_up x a hAnc with
        ⟨hUp, hUpA, hNe⟩
      exact ⟨hUp.of_link hRoot, hUpA.of_link hRoot, hNe⟩
  · intro x a u hAnc hUp hUpA hNe
    by_cases hEq : x = w
    · subst hEq
      rw [Function.update_self] at hAnc
      cases hAnc
      rw [hForest.label_root x hRoot]
      have hEqU : u = x := by
        by_contra hNeX
        rcases hUp.parent_of_ne (Ne.symm hNeX) with
          ⟨p, hParent, hUpP⟩
        rw [hLink] at hParent
        cases hParent
        have hLe := hUpP.rank_le hRanked
        have hLtU := hUpA.rank_lt hRanked hNe
        omega
      exact Int.le_of_eq (congrArg key hEqU.symm)
    · rw [Function.update_of_ne hEq] at hAnc
      have hOld := (hForest.up x a hAnc).1
      rcases hOld.before_link hRoot hRanked hUp hUpA hNe
        with ⟨hLeft, hRight⟩
      exact hForest.label_le x a u hAnc hLeft hRight hNe

end Links

------------------------------------------------------------
-- Roots
------------------------------------------------------------

/- The links lead from `v` to `r`, and not on. -/
def RootOf
    (parent : V → Option V)
    (v r : V) : Prop :=
  Up parent v r ∧ parent r = none

section Roots

variable {parent ancestor : V → Option V}
variable {label : V → V}
variable {key : V → Int}
variable {rank : V → Nat}
variable {r s v : V}

theorem RootOf.unique
    (hLeft : RootOf parent v r)
    (hRight : RootOf parent v s) :
    r = s := by
  rcases hLeft.1.total hRight.1 with hUp | hUp
  · exact hUp.eq_of_root hLeft.2
  · exact (hUp.eq_of_root hRight.2).symm

theorem exists_rootOf
    (hRanked : Ranked parent rank)
    (v : V) :
    ∃ r, RootOf parent v r := by
  induction hRank : rank v using Nat.strong_induction_on
    generalizing v with
  | _ n ih =>
      cases hParent : parent v with
      | none => exact ⟨v, Up.refl v, hParent⟩
      | some p =>
          have hLt := hRanked v p hParent
          rw [hRank] at hLt
          rcases ih (rank p) hLt p rfl with ⟨r, hUp, hRoot⟩
          exact ⟨r, (Up.single hParent).trans hUp, hRoot⟩

/- Compression leaves every node in its tree. -/
theorem Compressed.rootOf_iff
    (hForest : Compressed parent ancestor label key)
    (hRanked : Ranked parent rank) :
    RootOf ancestor v r ↔ RootOf parent v r := by
  have hUp :
      ∀ {u : V}, Up ancestor v u → Up parent v u := by
    intro u hAnc
    induction hAnc with
    | refl => exact Up.refl v
    | tail _ hStep ih =>
        exact ih.trans (hForest.up _ _ hStep).1
  have hRankedAnc : Ranked ancestor rank := by
    intro u a hAnc
    rcases hForest.up u a hAnc with ⟨hUpA, hNe⟩
    exact hUpA.rank_lt hRanked hNe
  constructor
  · rintro ⟨hAnc, hRoot⟩
    exact ⟨hUp hAnc, (hForest.root r).mp hRoot⟩
  · intro hRootOf
    rcases exists_rootOf hRankedAnc v with ⟨s, hAnc, hRoot⟩
    have hEq : s = r :=
      RootOf.unique ⟨hUp hAnc, (hForest.root s).mp hRoot⟩
        hRootOf
    rw [← hEq]
    exact ⟨hAnc, hRoot⟩

end Roots

------------------------------------------------------------
-- Depths
------------------------------------------------------------

/- The rank of a node counts the links above it. -/
structure Depth
    (parent : V → Option V)
    (rank : V → Nat) : Prop where
  root : ∀ v, parent v = none → rank v = 0
  step :
    ∀ v p, parent v = some p → rank v = rank p + 1

namespace Depth

variable {parent : V → Option V}
variable {rank : V → Nat}
variable {nodes : Finset V}
variable {v w : V}

theorem init :
    Depth (fun _ : V => none) (fun _ => 0) := by
  constructor
  · exact fun _ _ => rfl
  · intro v p hParent
    cases hParent

theorem ranked
    (hDepth : Depth parent rank) :
    Ranked parent rank := by
  intro v p hParent
  rw [hDepth.step v p hParent]
  exact Nat.lt_succ_self _

/- Above a node there is one node at every depth. -/
theorem exists_above
    (hDepth : Depth parent rank)
    (hClosed :
      ∀ v ∈ nodes, ∀ p, parent v = some p → p ∈ nodes)
    (hMem : v ∈ nodes)
    {k : Nat}
    (hLe : k ≤ rank v) :
    ∃ u ∈ nodes, rank u = k := by
  induction hRank : rank v generalizing v with
  | zero =>
      rw [hRank] at hLe
      exact ⟨v, hMem, hRank.trans (Nat.le_zero.mp hLe).symm⟩
  | succ n ih =>
      by_cases hEq : k = n + 1
      · exact ⟨v, hMem, hRank.trans hEq.symm⟩
      · cases hParent : parent v with
        | none =>
            rw [hDepth.root v hParent] at hRank
            cases hRank
        | some p =>
            have hStep := hDepth.step v p hParent
            exact ih (hClosed v hMem p hParent) (by omega)
              (by omega)

/- No path is longer than the number of nodes. -/
theorem lt_card
    (hDepth : Depth parent rank)
    (hClosed :
      ∀ v ∈ nodes, ∀ p, parent v = some p → p ∈ nodes)
    (hMem : v ∈ nodes) :
    rank v < nodes.card := by
  classical
  have hSubset :
      Finset.range (rank v + 1) ⊆ nodes.image rank := by
    intro k hK
    have hLe := Nat.lt_succ_iff.mp (Finset.mem_range.mp hK)
    rcases hDepth.exists_above hClosed hMem hLe with
      ⟨u, hMemU, hRank⟩
    exact Finset.mem_image.mpr ⟨u, hMemU, hRank⟩
  have hCard := Finset.card_le_card hSubset
  rw [Finset.card_range] at hCard
  exact hCard.trans Finset.card_image_le

/- A link from the root `w` to `v` lowers the tree of `w`. -/
open Classical in
noncomputable def lowered
    (parent : V → Option V)
    (rank : V → Nat)
    (v w x : V) : Nat :=
  if Up parent x w then rank x + (rank v + 1) else rank x

theorem lowered_lt
    (hDepth : Depth parent rank)
    (hRoot : parent w = none)
    (hOutside : ¬ Up parent v w) :
    lowered parent rank v w v = rank v ∧
      lowered parent rank v w w = rank v + 1 := by
  refine ⟨if_neg hOutside, ?_⟩
  rw [lowered, if_pos (Up.refl w), hDepth.root w hRoot]
  exact Nat.zero_add _

/- Both ends of an old link are lowered, or neither is. -/
theorem lowered_step
    (hDepth : Depth parent rank)
    (hRoot : parent w = none)
    {x p : V}
    (hParent : parent x = some p) :
    lowered parent rank v w x =
      lowered parent rank v w p + 1 := by
  have hSame : Up parent x w ↔ Up parent p w := by
    constructor
    · intro hUp
      have hNe : x ≠ w := by
        intro hEq
        rw [hEq, hRoot] at hParent
        cases hParent
      rcases hUp.parent_of_ne hNe with ⟨q, hParentQ, hRest⟩
      rw [hParent] at hParentQ
      cases hParentQ
      exact hRest
    · exact fun hUp => (Up.single hParent).trans hUp
  have hRank := hDepth.step x p hParent
  unfold lowered
  by_cases hIn : Up parent x w
  · rw [if_pos hIn, if_pos (hSame.mp hIn)]
    omega
  · rw [if_neg hIn, if_neg (fun hUp => hIn (hSame.mpr hUp))]
    exact hRank

theorem ranked_lowered
    (hDepth : Depth parent rank)
    (hRoot : parent w = none) :
    Ranked parent (lowered parent rank v w) := by
  intro x p hParent
  rw [hDepth.lowered_step hRoot hParent]
  exact Nat.lt_succ_self _

/- A link from a root to a node outside its tree. -/
theorem link
    [DecidableEq V]
    (hDepth : Depth parent rank)
    (hRoot : parent w = none)
    (hOutside : ¬ Up parent v w) :
    Depth (Function.update parent w (some v))
      (lowered parent rank v w) := by
  rcases hDepth.lowered_lt hRoot hOutside with
    ⟨hRankV, hRankW⟩
  constructor
  · intro x hRootX
    have hNe : x ≠ w := by
      intro hEq
      rw [hEq, Function.update_self] at hRootX
      cases hRootX
    rw [Function.update_of_ne hNe] at hRootX
    have hOut : ¬ Up parent x w :=
      fun hUp => hNe (hUp.eq_of_root hRootX)
    exact (if_neg hOut).trans (hDepth.root x hRootX)
  · intro x p hParent
    by_cases hEq : x = w
    · rw [hEq, Function.update_self] at hParent
      cases hParent
      rw [hEq, hRankW, hRankV]
    · rw [Function.update_of_ne hEq] at hParent
      exact hDepth.lowered_step hRoot hParent

end Depth

end PathCompression
