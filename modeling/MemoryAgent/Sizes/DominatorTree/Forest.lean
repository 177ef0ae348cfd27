import MemoryAgent.Graph.PathCompression
import MemoryAgent.Sizes.DominatorTree.Program

/-
  `link`, `compress` and `eval` on a forest with path
  compression.

  Key definitions include:
    * `DominatorTree.forestOf`
    * `DominatorTree.ForestInvariant`
    * `DominatorTree.Evaluates`

  Main results:
    * `DominatorTree.compress_spec`
    * `DominatorTree.eval_spec`
    * `DominatorTree.link_spec`
-/

------------------------------------------------------------
-- Forests in Vectors
------------------------------------------------------------

namespace MemoryAgent

namespace DominatorTree

open StdVector PathCompression

/- The value -1 stands for the absence of an ancestor. -/
def asLink (a : jlong) : Option jlong :=
  if a = -1 then none else some a

def forestOf
    (size : Nat)
    (ancestor label : jlong → jlong) : Forest where
  ancestor := tabulate size ancestor
  label := tabulate size label

/-
  The vectors hold the compressed forest of the links, all
  of which lead to vertices.
-/
structure ForestInvariant
    (size : Nat)
    (parent : jlong → Option jlong)
    (rank : jlong → Nat)
    (ancestor label semi : jlong → jlong) : Prop where
  compressed :
    Compressed parent (fun v => asLink (ancestor v)) label
      semi
  ranked : Ranked parent rank
  closed : ∀ v p, parent v = some p → InRange size p

/-
  What `eval` returns: a root itself, and otherwise a
  vertex of least key between `v` and its root.
-/
structure Evaluates
    (parent : jlong → Option jlong)
    (key : jlong → jlong)
    (v u : jlong) : Prop where
  up : Up parent v u
  of_root : parent v = none → u = v
  inner : parent v ≠ none → parent u ≠ none
  least :
    parent v ≠ none →
      ∀ y, Up parent v y → parent y ≠ none → key u ≤ key y

theorem asLink_eq_none_iff
    {a : jlong} :
    asLink a = none ↔ a = -1 := by
  unfold asLink
  split
  · simp [*]
  · simp [*]

theorem asLink_of_inRange
    {size : Nat}
    {a : jlong}
    (hRange : InRange size a) :
    asLink a = some a := by
  unfold asLink
  rw [if_neg]
  intro hEq
  have hNonneg := hRange.1
  rw [hEq] at hNonneg
  exact absurd hNonneg (by decide)

theorem asLink_update
    {size : Nat}
    {v b : jlong}
    (ancestor : jlong → jlong)
    (hRange : InRange size b) :
    (fun x => asLink (Function.update ancestor v b x)) =
      Function.update (fun x => asLink (ancestor x)) v
        (some b) := by
  funext x
  by_cases hEq : x = v
  · subst hEq
    simp [asLink_of_inRange hRange]
  · simp [hEq]

------------------------------------------------------------
-- Operations
------------------------------------------------------------

section Operations

variable {size : Nat}
variable {parent : jlong → Option jlong}
variable {rank : jlong → Nat}
variable {ancestor label semi : jlong → jlong}
variable {a u v w : jlong}

namespace ForestInvariant

theorem inRange_of_up
    (hForest :
      ForestInvariant size parent rank ancestor label semi)
    (hRange : InRange size v)
    (hUp : Up parent v u) :
    InRange size u := by
  induction hUp with
  | refl => exact hRange
  | tail _ hStep _ => exact hForest.closed _ _ hStep

theorem exists_ancestor
    (hForest :
      ForestInvariant size parent rank ancestor label semi)
    (hInner : parent v ≠ none) :
    asLink (ancestor v) = some (ancestor v) ∧
      ancestor v ≠ -1 := by
  have hNe : ancestor v ≠ -1 := by
    intro hEq
    exact hInner
      ((hForest.compressed.root v).mp
        (asLink_eq_none_iff.mpr hEq))
  exact ⟨if_neg hNe, hNe⟩

theorem label_inRange
    (hForest :
      ForestInvariant size parent rank ancestor label semi)
    (hRange : InRange size v) :
    InRange size (label v) := by
  by_cases hInner : parent v = none
  · rw [hForest.compressed.label_root v hInner]
    exact hRange
  · have hAnc := (hForest.exists_ancestor hInner).1
    exact hForest.inRange_of_up hRange
      (hForest.compressed.label_up v _ hAnc).1

/- The writes after the recursive call. -/
theorem shortcut
    (hForest :
      ForestInvariant size parent rank ancestor label semi)
    (hRange : InRange size v)
    (hInner : parent v ≠ none)
    (hNext : parent (ancestor v) ≠ none) :
    ForestInvariant size parent rank
      (Function.update ancestor v (ancestor (ancestor v)))
      (if semi (label (ancestor v)) < semi (label v) then
        Function.update label v (label (ancestor v))
      else label)
      semi := by
  have hAnc := (hForest.exists_ancestor hInner).1
  have hAnc' := (hForest.exists_ancestor hNext).1
  have hUp := (hForest.compressed.up v _ hAnc).1
  have hUp' := (hForest.compressed.up _ _ hAnc').1
  have hRangeB :=
    hForest.inRange_of_up
      (hForest.inRange_of_up hRange hUp) hUp'
  have hShort :=
    hForest.compressed.shortcut hForest.ranked hAnc hAnc'
  rw [← asLink_update ancestor hRangeB] at hShort
  exact ⟨hShort, hForest.ranked, hForest.closed⟩

end ForestInvariant

/-
  Compression moves the ancestor of a vertex to its root.
  The recursion descends in rank, and vertices of larger
  rank keep their ancestors and labels.
-/
theorem compress_spec
    (fuel : Nat)
    (v : jlong)
    (ancestor label : jlong → jlong)
    (hForest :
      ForestInvariant size parent rank ancestor label semi)
    (hRange : InRange size v)
    (hInner : parent v ≠ none)
    (hFuel : rank v < fuel) :
    ∃ ancestor' label',
      compress (tabulate size semi) fuel v
          (forestOf size ancestor label) =
        some (forestOf size ancestor' label') ∧
      ForestInvariant size parent rank ancestor' label'
        semi ∧
      parent (ancestor' v) = none ∧
      ∀ x, rank v < rank x →
        ancestor' x = ancestor x ∧ label' x = label x := by
  induction fuel generalizing v ancestor label with
  | zero => exact absurd hFuel (Nat.not_lt_zero _)
  | succ fuel ih =>
      rcases hForest.exists_ancestor hInner with
        ⟨hAnc, hNeg⟩
      rcases hForest.compressed.up v _ hAnc with
        ⟨hUp, hNe⟩
      have hRangeA := hForest.inRange_of_up hRange hUp
      have hRankA := hUp.rank_lt hForest.ranked hNe
      by_cases hNext : parent (ancestor v) = none
      · have hEnd : ancestor (ancestor v) = -1 :=
          asLink_eq_none_iff.mp
            ((hForest.compressed.root _).mpr hNext)
        refine ⟨ancestor, label, ?_, hForest, hNext,
          fun _ _ => ⟨rfl, rfl⟩⟩
        simp [compress, forestOf, read_tabulate _ hRange,
          read_tabulate _ hRangeA, hEnd]
      · rcases ih (ancestor v) ancestor label hForest
            hRangeA hNext (by omega) with
          ⟨ancestor', label', hCall, hForest', hRoot, hFrame⟩
        have hMore := (hForest.exists_ancestor hNext).2
        rcases hFrame v hRankA with ⟨hEqA, hEqL⟩
        have hNext' : parent (ancestor' v) ≠ none := by
          rw [hEqA]
          exact hNext
        refine ⟨_, _, ?_,
          hForest'.shortcut hRange hInner hNext', ?_, ?_⟩
        · have hRangeA' : InRange size (ancestor' v) := by
            rw [hEqA]
            exact hRangeA
          have hRangeLA :=
            hForest'.label_inRange hRangeA'
          have hRangeLV := hForest'.label_inRange hRange
          unfold compress
          simp only [forestOf, read_tabulate _ hRange,
            read_tabulate _ hRangeA, Option.bind_eq_bind,
            Option.bind_some, ne_eq, hMore,
            not_false_eq_true, if_true]
          change (compress (tabulate size semi) fuel
            (ancestor v) (forestOf size ancestor label)).bind
              _ = _
          rw [hCall]
          simp only [forestOf, Option.bind_some,
            read_tabulate _ hRange, read_tabulate _ hRangeA',
            read_tabulate _ hRangeLA,
            read_tabulate _ hRangeLV,
            write_tabulate _ _ hRange]
          split
          · rfl
          · rfl
        · rw [Function.update_self, hEqA]
          exact hRoot
        · intro x hLt
          have hNeX : x ≠ v := by
            intro hEq
            rw [hEq] at hLt
            exact absurd hLt (Nat.lt_irrefl _)
          rcases hFrame x (by omega) with ⟨hA, hL⟩
          rw [Function.update_of_ne hNeX]
          refine ⟨hA, ?_⟩
          split
          · rw [Function.update_of_ne hNeX]
            exact hL
          · exact hL

/- `eval` finds a least key and keeps the forest. -/
theorem eval_spec
    (fuel : Nat)
    (hForest :
      ForestInvariant size parent rank ancestor label semi)
    (hRange : InRange size v)
    (hFuel : rank v < fuel) :
    ∃ u ancestor' label',
      eval (tabulate size semi) fuel v
          (forestOf size ancestor label) =
        some (u, forestOf size ancestor' label') ∧
      ForestInvariant size parent rank ancestor' label'
        semi ∧
      Evaluates parent semi v u := by
  by_cases hInner : parent v = none
  · have hNone : ancestor v = -1 :=
      asLink_eq_none_iff.mp
        ((hForest.compressed.root v).mpr hInner)
    refine ⟨v, ancestor, label, ?_, hForest, Up.refl v,
      fun _ => rfl, fun hNot => hNot,
      fun hNot => absurd hInner hNot⟩
    simp [eval, forestOf, read_tabulate _ hRange, hNone]
  · rcases compress_spec fuel v ancestor label hForest hRange
        hInner hFuel with
      ⟨ancestor', label', hCall, hForest', hRoot, _⟩
    have hSome := (hForest.exists_ancestor hInner).2
    have hAnc := (hForest'.exists_ancestor hInner).1
    rcases hForest'.compressed.label_up v _ hAnc with
      ⟨hUp, hUpA, hNe⟩
    refine ⟨label' v, ancestor', label', ?_, hForest', hUp,
      fun hNot => absurd hNot hInner, ?_, ?_⟩
    · unfold eval
      simp only [forestOf, read_tabulate _ hRange,
        Option.bind_eq_bind, Option.bind_some, hSome,
        if_false]
      change (compress (tabulate size semi) fuel v
        (forestOf size ancestor label)).bind _ = _
      rw [hCall]
      simp only [forestOf, Option.bind_some,
        read_tabulate _ hRange]
    · intro _
      rcases hUpA.parent_of_ne hNe with ⟨p, hParent, _⟩
      rw [hParent]
      exact Option.some_ne_none p
    · intro _ y hUpY hInnerY
      exact hForest'.compressed.label_le_root hAnc hRoot
        hUpY hInnerY

/- `link` adds a link from a root. -/
theorem link_spec
    (hForest :
      ForestInvariant size parent rank ancestor label semi)
    (hRangeW : InRange size w)
    (hRangeV : InRange size v)
    (hRoot : parent w = none)
    (hRank : rank v < rank w) :
    link v w (forestOf size ancestor label) =
        some (forestOf size (Function.update ancestor w v)
          label) ∧
      ForestInvariant size
        (Function.update parent w (some v)) rank
        (Function.update ancestor w v) label semi := by
  have hRanked :
      Ranked (Function.update parent w (some v)) rank := by
    intro x p hParent
    by_cases hEq : x = w
    · subst hEq
      rw [Function.update_self] at hParent
      cases hParent
      exact hRank
    · rw [Function.update_of_ne hEq] at hParent
      exact hForest.ranked x p hParent
  refine ⟨?_, ?_, hRanked, ?_⟩
  · simp [link, forestOf, write_tabulate _ _ hRangeW]
  · rw [asLink_update ancestor hRangeV]
    exact hForest.compressed.link hRoot hRanked
  · intro x p hParent
    by_cases hEq : x = w
    · subst hEq
      rw [Function.update_self] at hParent
      cases hParent
      exact hRangeV
    · rw [Function.update_of_ne hEq] at hParent
      exact hForest.closed x p hParent

end Operations

end DominatorTree

end MemoryAgent
