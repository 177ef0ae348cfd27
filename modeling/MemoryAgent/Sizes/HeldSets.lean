import Mathlib.Algebra.Order.BigOperators.Group.Finset
import Mathlib.Algebra.Order.Ring.Int
import MemoryAgent.Sizes.RetainedSizeAndHeldObjects

/-
  What the runs of `size` for several objects have in common.
  Objects that the roots reach hold nested or disjoint sets,
  so that nothing is counted for two of them unless one
  holds the other.

  Key definitions include:
    * `RetainedSizeAndHeldObjects.rootReachableSum`

  Main results:
    * `Heap.dominates_or`
    * `RetainedSizeAndHeldObjects.heldObjects_nested`
-/

------------------------------------------------------------
-- Dominators of a Heap
------------------------------------------------------------

namespace MemoryAgent

namespace Heap

variable {O : Type}
variable {h : Heap O}
variable {X : O → Prop}
variable {x y o : O}

/- A path around `X` to an object avoids `y` or meets it. -/
theorem ReachedAvoiding.avoids_or
    (hReached : h.ReachedAvoiding X o)
    (y : O) :
    h.ReachedAvoiding (· = y) o ∨ h.ReachedAvoiding X y := by
  induction hReached with
  | @root r hMem hKind hX =>
      by_cases hEq : r.referee = y
      · exact Or.inr (hEq ▸ .root hMem hKind hX)
      · exact Or.inl (.root hMem hKind hEq)
  | @step a b hReachedA hRefers hX ih =>
      rcases ih with hAvoids | hMet
      · by_cases hEq : b = y
        · exact Or.inr (hEq ▸ .step hReachedA hRefers hX)
        · exact Or.inl (.step hAvoids hRefers hEq)
      · exact Or.inr hMet

/-
  If each of two objects is reached around the other, then
  every object is reached around one of them.
-/
theorem reachedAvoiding_or
    (hX : h.ReachedAvoiding (· = y) x)
    (hY : h.ReachedAvoiding (· = x) y)
    (hRoot : h.RootReachable o) :
    h.ReachedAvoiding (· = x) o ∨
      h.ReachedAvoiding (· = y) o := by
  have hNe : x ≠ y := hX.not_mem
  induction hRoot with
  | @root r hMem hKind _ =>
      by_cases hEq : r.referee = x
      · exact Or.inr (hEq ▸ hX)
      · exact Or.inl (.root hMem hKind hEq)
  | @step a b _ hRefers _ ih =>
      rcases ih with hAvoids | hAvoids
      · by_cases hEq : b = x
        · exact Or.inr (hEq ▸ hX)
        · exact Or.inl (.step hAvoids hRefers hEq)
      · by_cases hEq : b = y
        · exact Or.inl (hEq ▸ hY)
        · exact Or.inr (.step hAvoids hRefers hEq)

/- Of two dominators of an object one dominates the other. -/
theorem dominates_or
    (hRootX : h.RootReachable x)
    (hRootY : h.RootReachable y)
    (hX : h.Dominates x o)
    (hY : h.Dominates y o) :
    h.Dominates x y ∨ h.Dominates y x := by
  by_contra hNot
  rcases not_or.mp hNot with ⟨hNotX, hNotY⟩
  have hAvoidX : h.ReachedAvoiding (· = x) y := by
    by_contra hNone
    exact hNotX ⟨hRootY, hNone⟩
  have hAvoidY : h.ReachedAvoiding (· = y) x := by
    by_contra hNone
    exact hNotY ⟨hRootX, hNone⟩
  rcases reachedAvoiding_or hAvoidY hAvoidX hX.1 with
    hAvoids | hAvoids
  · exact hX.2 hAvoids
  · exact hY.2 hAvoids

theorem Dominates.trans
    (hXY : h.Dominates x y)
    (hYO : h.Dominates y o) :
    h.Dominates x o := by
  refine ⟨hYO.1, ?_⟩
  intro hAvoids
  rcases hAvoids.avoids_or y with hAround | hMet
  · exact hYO.2 hAround
  · exact hXY.2 hMet

/- Of two objects one is reached first. -/
theorem Dominates.antisymm
    (hXY : h.Dominates x y)
    (hYX : h.Dominates y x) :
    x = y := by
  by_contra hNe
  have hFirst :
      ∀ o, h.RootReachable o →
        h.ReachedAvoiding (fun p => p = x ∨ p = y) o := by
    intro o hRoot
    induction hRoot with
    | @root r hMem hKind _ =>
        refine .root hMem hKind ?_
        rintro (hEq | hEq)
        · exact hYX.2 (hEq ▸ .root hMem hKind
            (fun hSame => hNe (hEq.symm.trans hSame)))
        · exact hXY.2 (hEq ▸ .root hMem hKind
            (fun hSame => hNe (hSame.symm.trans hEq)))
    | @step a b _ hRefers _ ih =>
        refine .step ih hRefers ?_
        rintro (hEq | hEq)
        · have hAround := ih.mono (Y := (· = y))
            (fun _ hSame => Or.inr hSame)
          exact hYX.2 (hEq ▸ .step hAround hRefers
            (fun hSame => hNe (hEq.symm.trans hSame)))
        · have hAround := ih.mono (Y := (· = x))
            (fun _ hSame => Or.inl hSame)
          exact hXY.2 (hEq ▸ .step hAround hRefers
            (fun hSame => hNe (hSame.symm.trans hEq)))
  exact (hFirst x hYX.1).not_mem (Or.inl rfl)

end Heap

------------------------------------------------------------
-- Several Runs
------------------------------------------------------------

namespace RetainedSizeAndHeldObjects

variable {O : Type}
variable [Fintype O]
variable {h : Heap O}
variable {x y : O}

/- The total size of what the roots outside JNI reach. -/
open scoped Classical in
noncomputable def rootReachableSum (h : Heap O) : jlong :=
  ∑ o ∈ Finset.univ.filter h.RootReachable, h.size o

/- What a dominated object retains is less. -/
theorem retainedSum_lt
    (hRootX : h.RootReachable x)
    (hRootY : h.RootReachable y)
    (hYX : h.Dominates y x)
    (hNe : x ≠ y) :
    retainedSum h x < retainedSum h y := by
  classical
  unfold retainedSum
  have hSelf : h.Dominates y y :=
    (Heap.retained_iff_dominates hRootY).mp
      (Heap.retained_of_mem rfl)
  apply Finset.sum_lt_sum_of_subset (i := y)
  · intro o hMem
    rw [Finset.mem_filter, Heap.retained_iff_dominates hRootX]
      at hMem
    rw [Finset.mem_filter, Heap.retained_iff_dominates hRootY]
    exact ⟨hMem.1, hYX.trans hMem.2⟩
  · rw [Finset.mem_filter, Heap.retained_iff_dominates hRootY]
    exact ⟨Finset.mem_univ y, hSelf⟩
  · rw [Finset.mem_filter, Heap.retained_iff_dominates hRootX]
    exact fun hMem => hNe (hMem.2.antisymm hYX)
  · exact h.size_pos y
  · exact fun o _ _ => (h.size_pos o).le

/- Objects apart retain disjoint sets. -/
theorem sum_retainedSum_le
    {apart : Finset O}
    (hRooted : ∀ x ∈ apart, h.RootReachable x)
    (hApart :
      ∀ x ∈ apart, ∀ y ∈ apart, x ≠ y →
        ¬ h.Dominates y x) :
    ∑ x ∈ apart, retainedSum h x ≤ rootReachableSum h := by
  classical
  unfold retainedSum rootReachableSum
  rw [← Finset.sum_biUnion]
  · apply Finset.sum_le_sum_of_subset_of_nonneg
    · intro o hMem
      rcases Finset.mem_biUnion.mp hMem with ⟨x, hX, hO⟩
      rw [Finset.mem_filter,
        Heap.retained_iff_dominates (hRooted x hX)] at hO
      exact Finset.mem_filter.mpr ⟨hO.1, hO.2.1⟩
    · exact fun o _ _ => (h.size_pos o).le
  · intro x hX y hY hNe
    rw [Finset.mem_coe] at hX hY
    apply Finset.disjoint_left.mpr
    intro o hMemX hMemY
    rw [Finset.mem_filter,
      Heap.retained_iff_dominates (hRooted x hX)] at hMemX
    rw [Finset.mem_filter,
      Heap.retained_iff_dominates (hRooted y hY)] at hMemY
    rcases Heap.dominates_or (hRooted x hX) (hRooted y hY)
        hMemX.2 hMemY.2 with hXY | hYX
    · exact hApart y hY x hX hNe.symm hXY
    · exact hApart x hX y hY hNe hYX

variable [DecidableEq O]

/- The held objects of a run, and their size. -/
theorem Uninterrupted.retained
    {first second : List (Report O)}
    {heldObjects : List O}
    (hRun :
      Uninterrupted h x first second heldObjects) :
    heldObjects.Nodup ∧
      (∀ o, o ∈ heldObjects ↔ h.Retained (· = x) o) ∧
      (executeOperation h x first second
        heldObjects).retainedSize = retainedSum h x := by
  rcases (Heap.objectsWithTags_singleton
      heldObjectTag_ne_zero).mp hRun.heldObjects_tagged with
    ⟨hNodup, hTagged⟩
  refine ⟨hNodup, ?_, ?_⟩
  · intro o
    rw [hTagged o,
      (estimateObjectSize_held hRun.first_complete
        hRun.second_complete).1 o]
  · exact estimateObjectSize_user hRun.first_complete
      hRun.second_complete

/-
  Runs of `size` for objects that the roots reach: what an
  object holds is part of what an object holds that holds
  it, and is of less size; otherwise two objects hold
  nothing in common.  So the retained sizes of objects that
  do not hold each other add up to no more than the size of
  all that the roots reach.
-/
theorem heldObjects_nested
    (h : Heap O)
    (starts : Finset O)
    (first second : O → List (Report O))
    (held : O → List O)
    (hRuns :
      ∀ x ∈ starts,
        Uninterrupted h x (first x) (second x) (held x))
    (hRooted : ∀ x ∈ starts, h.RootReachable x) :
    (∀ x ∈ starts, ∀ y ∈ starts, x ≠ y →
      (x ∈ held y →
        held x ⊆ held y ∧ y ∉ held x ∧
          (executeOperation h x (first x) (second x)
              (held x)).retainedSize <
            (executeOperation h y (first y) (second y)
              (held y)).retainedSize) ∧
      (x ∉ held y → y ∉ held x →
        (held x).Disjoint (held y))) ∧
    ∀ apart ⊆ starts,
      (∀ x ∈ apart, ∀ y ∈ apart, x ≠ y → x ∉ held y) →
        ∑ x ∈ apart,
            (executeOperation h x (first x) (second x)
              (held x)).retainedSize ≤
          rootReachableSum h := by
  have hHeld :
      ∀ x ∈ starts, ∀ o, o ∈ held x ↔ h.Dominates x o :=
    fun x hX o =>
      ((hRuns x hX).retained.2.1 o).trans
        (Heap.retained_iff_dominates (hRooted x hX))
  have hSize :
      ∀ x ∈ starts,
        (executeOperation h x (first x) (second x)
          (held x)).retainedSize = retainedSum h x :=
    fun x hX => (hRuns x hX).retained.2.2
  constructor
  · intro x hX y hY hNe
    constructor
    · intro hMem
      have hYX := (hHeld y hY x).mp hMem
      refine ⟨?_, ?_, ?_⟩
      · intro o hO
        exact (hHeld y hY o).mpr
          (hYX.trans ((hHeld x hX o).mp hO))
      · intro hBack
        exact hNe (((hHeld x hX y).mp hBack).antisymm hYX)
      · rw [hSize x hX, hSize y hY]
        exact retainedSum_lt (hRooted x hX) (hRooted y hY)
          hYX hNe
    · intro hNotX hNotY o hOX hOY
      rcases Heap.dominates_or (hRooted x hX) (hRooted y hY)
          ((hHeld x hX o).mp hOX)
          ((hHeld y hY o).mp hOY) with hXY | hYX
      · exact hNotY ((hHeld x hX y).mpr hXY)
      · exact hNotX ((hHeld y hY x).mpr hYX)
  · intro apart hSubset hApart
    rw [Finset.sum_congr rfl
      (fun x hX => hSize x (hSubset hX))]
    apply sum_retainedSum_le
    · exact fun x hX => hRooted x (hSubset hX)
    · intro x hX y hY hNe hYX
      exact hApart x hX y hY hNe
        ((hHeld y (hSubset hY) x).mpr hYX)

/- A root object that refers to an object and to a pair. -/
def objectAndPair : Heap (Fin 4) where
  roots := [⟨.monitor, .none, 0⟩]
  references := fun o =>
    if o = 0 then
      [⟨.field, .index 0, 1⟩, ⟨.field, .index 1, 2⟩]
    else if o = 1 then [⟨.field, .index 0, 3⟩]
    else []
  size := fun _ => 16
  classOf := fun _ => 2
  roots_isRoot := by decide
  references_isHeld := by decide
  size_pos := fun _ => sixteen_pos

def firstReports (x : Fin 4) : List (Report (Fin 4)) :=
  [⟨none, ⟨.monitor, .none, 0⟩⟩] ++
    (if x = 0 then []
      else
        [⟨some 0, ⟨.field, .index 0, 1⟩⟩,
          ⟨some 0, ⟨.field, .index 1, 2⟩⟩]) ++
    (if x = 2 then [⟨some 1, ⟨.field, .index 0, 3⟩⟩]
      else [])

def secondReports (x : Fin 4) : List (Report (Fin 4)) :=
  (if x = 0 then
      [⟨some 0, ⟨.field, .index 0, 1⟩⟩,
        ⟨some 0, ⟨.field, .index 1, 2⟩⟩]
    else []) ++
    (if x = 2 then []
      else [⟨some 1, ⟨.field, .index 0, 3⟩⟩])

def heldBy (x : Fin 4) : List (Fin 4) :=
  if x = 0 then [0, 1, 2, 3]
  else if x = 1 then [1, 3]
  else [2]

/- The pair, and the two objects that share nothing. -/
theorem heldObjects_nested_objectAndPair :
    (executeOperation objectAndPair 1 (firstReports 1)
        (secondReports 1) (heldBy 1)).retainedSize <
      (executeOperation objectAndPair 0 (firstReports 0)
        (secondReports 0) (heldBy 0)).retainedSize ∧
      (heldBy 1).Disjoint (heldBy 2) ∧
      ∑ x ∈ {1, 2},
          (executeOperation objectAndPair x (firstReports x)
            (secondReports x) (heldBy x)).retainedSize ≤
        rootReachableSum objectAndPair := by
  have hRuns :
      ∀ x ∈ ({0, 1, 2} : Finset (Fin 4)),
        Uninterrupted objectAndPair x (firstReports x)
          (secondReports x) (heldBy x) := by
    intro x hX
    simp only [Finset.mem_insert, Finset.mem_singleton] at hX
    rcases hX with rfl | rfl | rfl
    · exact ⟨by decide, by decide, by decide⟩
    · exact ⟨by decide, by decide, by decide⟩
    · exact ⟨by decide, by decide, by decide⟩
  have hRoot : objectAndPair.RootReachable 0 :=
    .root (r := ⟨.monitor, .none, 0⟩)
      (List.mem_cons_self ..) rfl id
  have hRooted :
      ∀ x ∈ ({0, 1, 2} : Finset (Fin 4)),
        objectAndPair.RootReachable x := by
    intro x hX
    simp only [Finset.mem_insert, Finset.mem_singleton] at hX
    rcases hX with rfl | rfl | rfl
    · exact hRoot
    · exact .step hRoot
        ⟨⟨.field, .index 0, 1⟩, by decide, rfl⟩ id
    · exact .step hRoot
        ⟨⟨.field, .index 1, 2⟩, by decide, rfl⟩ id
  have hNested :=
    heldObjects_nested objectAndPair {0, 1, 2} firstReports
      secondReports heldBy hRuns hRooted
  refine ⟨?_, ?_, ?_⟩
  · exact ((hNested.1 1 (by decide) 0 (by decide)
      (by decide)).1 (by decide)).2.2
  · exact (hNested.1 1 (by decide) 2 (by decide)
      (by decide)).2 (by decide) (by decide)
  · exact hNested.2 {1, 2} (by decide) (by decide)

end RetainedSizeAndHeldObjects

end MemoryAgent
