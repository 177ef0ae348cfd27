import MemoryAgent.Sizes.DominatorTree.DepthFirst
import MemoryAgent.Sizes.DominatorTree.Forest

/-
  The main loop computes semidominators in decreasing order
  of the numbers and leaves for every vertex a dominator
  that is relative to another vertex.

  Key definitions include:
    * `DominatorTree.links`
    * `DominatorTree.Loop`
    * `DominatorTree.Pending`
    * `DominatorTree.Resolved`
    * `DominatorTree.LoopInvariant`

  Main results:
    * `DominatorTree.visitPreds_spec`
    * `DominatorTree.visitBuckets_spec`
    * `DominatorTree.mainStep_spec`
    * `DominatorTree.mainLoop_spec`
-/

------------------------------------------------------------
-- Links of the Forest
------------------------------------------------------------

namespace MemoryAgent

namespace DominatorTree

open StdVector Dominance PathCompression

/- Vertices with numbers above `i` are linked to parents. -/
def links
    (r : Search)
    (i : Nat) : jlong → Option jlong :=
  fun w => if i < r.num w then some (r.parent w) else none

section Links

variable {g : FlowGraph}
variable {r : Search}
variable {i : Nat}
variable {u v w : jlong}

theorem links_eq_none_iff :
    links r i v = none ↔ r.num v ≤ i := by
  unfold links
  split
  · simp
    omega
  · simp
    omega

theorem links_eq_some
    (hLink : links r i v = some w) :
    i < r.num v ∧ r.parent v = w := by
  unfold links at hLink
  split at hLink
  · exact ⟨by assumption, Option.some.inj hLink⟩
  · cases hLink

namespace Search.Complete

theorem numbered_of_num_pos
    (hComplete : r.Complete g)
    (hPos : 0 < r.num v) :
    r.Numbered v := by
  by_contra hNew
  have hZero := hComplete.valid.semi_new v hNew
  rw [Search.num, hZero] at hPos
  exact absurd hPos (by decide)

theorem ne_root_of_num_pos
    (hComplete : r.Complete g)
    (hPos : 0 < r.num v) :
    v ≠ 0 := by
  intro hEq
  rw [hEq, hComplete.num_root] at hPos
  exact absurd hPos (Nat.lt_irrefl 0)

theorem ancestor_of_up
    (hComplete : r.Complete g)
    (hUp : Up (links r i) v u) :
    Ancestor 0 r.parent u v := by
  induction hUp using
    Relation.ReflTransGen.head_induction_on with
  | refl => exact Ancestor.refl
  | head hStep _ ih =>
      rcases links_eq_some hStep with ⟨hLt, hEq⟩
      refine Ancestor.child
        (hComplete.ne_root_of_num_pos (by omega)) ?_
      rw [hEq]
      exact ih

theorem up_of_ancestor
    (hComplete : r.Complete g)
    (hNumbered : r.Numbered v)
    (hAnc : Ancestor 0 r.parent u v)
    (hLt : i < r.num u) :
    Up (links r i) v u := by
  induction hAnc with
  | refl => exact Up.refl u
  | @child v hNe hAnc ih =>
      have hTree := hComplete.depthFirstTree
      have hLe := hTree.num_le
        (Ancestor.child hNe hAnc) hNumbered
      have hLink : links r i v = some (r.parent v) :=
        if_pos (by omega)
      exact (Up.single hLink).trans
        (ih (hTree.parent_reached v hNumbered hNe))

/- Linking the vertex with the next lower number. -/
theorem update_links
    (hComplete : r.Complete g)
    (hLt : i + 1 < r.n) :
    Function.update (links r (i + 1)) (r.nth (i + 1))
        (some (r.parent (r.nth (i + 1)))) =
      links r i := by
  funext v
  have hNum := hComplete.num_nth hLt
  by_cases hEq : v = r.nth (i + 1)
  · subst hEq
    rw [Function.update_self, links, hNum,
      if_pos (Nat.lt_succ_self i)]
  · rw [Function.update_of_ne hEq]
    unfold links
    by_cases hHigh : i + 1 < r.num v
    · rw [if_pos hHigh, if_pos (by omega)]
    · have hNe : r.num v ≠ i + 1 := by
        intro hEqNum
        have hNumbered :=
          hComplete.numbered_of_num_pos
            (v := v) (by omega)
        refine hEq ?_
        rw [← hEqNum, hComplete.nth_num hNumbered]
      rw [if_neg hHigh, if_neg (by omega)]

end Search.Complete

end Links

------------------------------------------------------------
-- Invariant
------------------------------------------------------------

/- A state of the loop with its vectors as functions. -/
structure Loop where
  semi : jlong → jlong
  ancestor : jlong → jlong
  label : jlong → jlong
  bucket : jlong → jlongs
  dom : jlong → jlong

def Loop.dominators
    (size : Nat)
    (s : Loop) : Dominators where
  semi := tabulate size s.semi
  forest := forestOf size s.ancestor s.label
  bucket := tabulate size s.bucket
  dom := tabulate size s.dom

/-
  `w` waits in the bucket of its semidominator `x` until the
  child of `x` above it is linked, which has a number up to
  `i`.
-/
structure Pending
    (g : FlowGraph)
    (r : Search)
    (j i : Nat)
    (x w : jlong) : Prop where
  lt : j < r.num w
  semi : IsSemi g.Edge r.num r.Numbered x w
  child :
    ∃ c, r.num c ≠ 0 ∧ r.parent c = x ∧
      Ancestor 0 r.parent c w ∧ r.num c ≤ i

/-
  The value `d` decides the immediate dominator of `w`: it is
  the semidominator, or a vertex below it with the least
  semidominator.
-/
def Resolved
    (g : FlowGraph)
    (r : Search)
    (w d : jlong) : Prop :=
  ∃ x, IsSemi g.Edge r.num r.Numbered x w ∧
    ((d = x ∧
        ∀ u t, Ancestor 0 r.parent u w →
          r.num x < r.num u →
            IsSemi g.Edge r.num r.Numbered t u →
              r.num x ≤ r.num t) ∨
      (r.num x < r.num d ∧ Ancestor 0 r.parent d w ∧
        ∃ t, IsSemi g.Edge r.num r.Numbered t d ∧
          r.num t < r.num x ∧
            ∀ u q, Ancestor 0 r.parent u w →
              r.num x < r.num u →
                IsSemi g.Edge r.num r.Numbered q u →
                  r.num t ≤ r.num q))

/- What holds when the numbers above `i` are dealt with. -/
structure LoopInvariant
    (g : FlowGraph)
    (r : Search)
    (i : Nat)
    (s : Loop) : Prop where
  forest :
    ForestInvariant g.order (links r i) r.num s.ancestor
      s.label s.semi
  semi_low :
    ∀ v, r.Numbered v → r.num v ≤ i → s.semi v = r.num v
  semi_high :
    ∀ v, i < r.num v →
      ∃ x, IsSemi g.Edge r.num r.Numbered x v ∧
        s.semi v = r.num x
  pending : ∀ x w, w ∈ s.bucket x → Pending g r i i x w
  resolved :
    ∀ w, i < r.num w →
      (∃ x, w ∈ s.bucket x) ∨ Resolved g r w (s.dom w)
  untouched : ∀ w, ¬ r.Numbered w → s.dom w = 0

section Steps

variable {g : FlowGraph}
variable {r : Search}
variable {fuel i : Nat}
variable {s s₀ : Loop}
variable {p u v w x : jlong}

theorem isSemi_unique
    (hComplete : r.Complete g)
    {x y : jlong}
    (hLeft : IsSemi g.Edge r.num r.Numbered x w)
    (hRight : IsSemi g.Edge r.num r.Numbered y w) :
    x = y := by
  refine hComplete.depthFirstTree.inj x y hLeft.source
    hRight.source (le_antisymm ?_ ?_)
  · exact hLeft.least y hRight.source hRight.path
  · exact hRight.least x hLeft.source hLeft.path

------------------------------------------------------------
-- Predecessors
------------------------------------------------------------

/- The bounds that a visited predecessor puts on a key. -/
structure Candidate
    (g : FlowGraph)
    (r : Search)
    (i : Nat)
    (v : jlong)
    (key : jlong) : Prop where
  low : r.num v ≤ i → key ≤ r.num v
  high :
    ∀ u t, i < r.num u → Ancestor 0 r.parent u v →
      IsSemi g.Edge r.num r.Numbered t u → key ≤ r.num t

/-
  The state in the loop over the predecessors of `w`, the
  vertex with the number `i`.
-/
structure PredInvariant
    (g : FlowGraph)
    (r : Search)
    (i : Nat)
    (w : jlong)
    (s₀ s : Loop) : Prop where
  forest :
    ForestInvariant g.order (links r i) r.num s.ancestor
      s.label s.semi
  semi_eq : ∀ v, v ≠ w → s.semi v = s₀.semi v
  le : s.semi w ≤ r.num w
  source :
    s.semi w = r.num w ∨
      ∃ x, r.Numbered x ∧ SemiPath g.Edge r.num w x ∧
        s.semi w = r.num x
  bucket : s.bucket = s₀.bucket
  dom : s.dom = s₀.dom

theorem PredInvariant.init
    (hInvariant : LoopInvariant g r i s)
    (hNumbered : r.Numbered w)
    (hNum : r.num w = i) :
    PredInvariant g r i w s s := by
  have hSemi := hInvariant.semi_low w hNumbered hNum.le
  exact ⟨hInvariant.forest, fun _ _ => rfl,
    Int.le_of_eq hSemi, Or.inl hSemi, rfl, rfl⟩

/- The key that `eval` finds for a predecessor. -/
theorem PredInvariant.key_of_eval
    (hComplete : r.Complete g)
    (hInvariant : LoopInvariant g r i s₀)
    (hPred : PredInvariant g r i w s₀ s)
    (hNum : r.num w = i)
    (hNumbered : r.Numbered v)
    (hEdge : g.Edge v w)
    (hEval : Evaluates (links r i) s.semi v u) :
    (s.semi u = s.semi w ∨
        ∃ x, r.Numbered x ∧ SemiPath g.Edge r.num w x ∧
          s.semi u = r.num x) ∧
      ∀ key, key ≤ s.semi u → key ≤ s.semi w →
        Candidate g r i v key := by
  have hTree := hComplete.depthFirstTree
  have hHigh :
      ∀ y, i < r.num y →
        ∃ t, IsSemi g.Edge r.num r.Numbered t y ∧
          s.semi y = r.num t := by
    intro y hLt
    have hNe : y ≠ w := by
      intro hEq
      rw [hEq] at hLt
      omega
    rw [hPred.semi_eq y hNe]
    exact hInvariant.semi_high y hLt
  by_cases hLow : r.num v ≤ i
  · have hEq := hEval.of_root (links_eq_none_iff.mpr hLow)
    subst hEq
    have hNone :
        ∀ y, i < r.num y → ¬ Ancestor 0 r.parent y u := by
      intro y hLt hAnc
      have hLe := hTree.num_le hAnc hNumbered
      omega
    by_cases hSelf : u = w
    · subst hSelf
      refine ⟨Or.inl rfl, fun key hKey _ => ⟨?_, ?_⟩⟩
      · intro _
        exact Int.le_trans hKey hPred.le
      · intro y t hLt hAnc _
        exact absurd hAnc (hNone y hLt)
    · have hSemi : s.semi u = r.num u := by
        rw [hPred.semi_eq u hSelf]
        exact hInvariant.semi_low u hNumbered hLow
      refine ⟨Or.inr ⟨u, hNumbered, SemiPath.edge hEdge,
        hSemi⟩, fun key hKey _ => ⟨?_, ?_⟩⟩
      · intro _
        rw [← hSemi]
        exact hKey
      · intro y t hLt hAnc _
        exact absurd hAnc (hNone y hLt)
  · have hInner : links r i v ≠ none := by
      rw [ne_eq, links_eq_none_iff]
      exact hLow
    have hInnerU := hEval.inner hInner
    rw [ne_eq, links_eq_none_iff] at hInnerU
    rcases hHigh u (by omega) with ⟨t, hSemiT, hKeyU⟩
    have hAncU := hComplete.ancestor_of_up hEval.up
    refine ⟨Or.inr ⟨t, hSemiT.source, ?_, hKeyU⟩,
      fun key hKey _ => ⟨fun hNot => absurd hNot hLow, ?_⟩⟩
    · exact hTree.semiPath_compose hNumbered hSemiT.path
        (by omega) hAncU hEdge
    · intro y q hLt hAnc hSemiQ
      have hUp := hComplete.up_of_ancestor hNumbered hAnc hLt
      have hInnerY : links r i y ≠ none := by
        rw [ne_eq, links_eq_none_iff]
        omega
      have hLe := hEval.least hInner y hUp hInnerY
      rcases hHigh y hLt with ⟨q', hSemiQ', hKeyY⟩
      have hEqQ := isSemi_unique hComplete hSemiQ hSemiQ'
      rw [hEqQ, ← hKeyY]
      exact Int.le_trans hKey hLe

/- Lowering the key of `w` changes no label path. -/
theorem PredInvariant.lower
    (hPred : PredInvariant g r i w s₀ s)
    {ancestor label : jlong → jlong}
    {key : jlong}
    (hForest :
      ForestInvariant g.order (links r i) r.num ancestor
        label s.semi)
    (hNum : r.num w = i)
    (hLe : key ≤ s.semi w)
    (hSource :
      key = r.num w ∨
        ∃ x, r.Numbered x ∧ SemiPath g.Edge r.num w x ∧
          key = r.num x) :
    PredInvariant g r i w s₀
      { s with
        semi := Function.update s.semi w key
        ancestor := ancestor
        label := label } := by
  have hSame :
      ∀ y, y ≠ w →
        Function.update s.semi w key y = s.semi y :=
    fun y hNe => Function.update_of_ne hNe _ _
  have hSelf :
      Function.update s.semi w key w = key :=
    Function.update_self w _ _
  refine ⟨⟨?_, hForest.ranked, hForest.closed⟩, ?_, ?_, ?_,
    hPred.bucket, hPred.dom⟩
  · refine hForest.compressed.change_keys _ ?_
    intro y hInner
    refine hSame y ?_
    intro hEq
    rw [hEq, ne_eq, links_eq_none_iff] at hInner
    omega
  · intro y hNe
    exact (hSame y hNe).trans (hPred.semi_eq y hNe)
  · change Function.update s.semi w key w ≤ _
    rw [hSelf]
    exact Int.le_trans hLe hPred.le
  · simpa only [hSelf] using hSource

theorem visitPred_spec
    (hComplete : r.Complete g)
    (hInvariant : LoopInvariant g r i s₀)
    (hPred : PredInvariant g r i w s₀ s)
    (hNum : r.num w = i)
    (hNumberedW : r.Numbered w)
    (hNumbered : r.Numbered v)
    (hEdge : g.Edge v w)
    (hFuel : g.order ≤ fuel) :
    ∃ s', visitPred fuel w (s.dominators g.order) v =
        some (s'.dominators g.order) ∧
      PredInvariant g r i w s₀ s' ∧
      s'.semi w ≤ s.semi w ∧
      Candidate g r i v (s'.semi w) := by
  have hRange := hComplete.inRange hNumbered
  have hRangeW := hComplete.inRange hNumberedW
  have hRank : r.num v < fuel := by
    have hLt := hComplete.num_lt hNumbered
    have hLe := hComplete.valid.n_le_order
    omega
  rcases eval_spec fuel hPred.forest hRange hRank with
    ⟨u, ancestor, label, hCall, hForest, hEval⟩
  have hRangeU :=
    hPred.forest.inRange_of_up hRange hEval.up
  rcases hPred.key_of_eval hComplete hInvariant hNum
      hNumbered hEdge hEval with ⟨hSource, hCandidate⟩
  by_cases hLess : s.semi u < s.semi w
  · refine ⟨{ s with
        semi := Function.update s.semi w (s.semi u)
        ancestor := ancestor
        label := label }, ?_, ?_, ?_, ?_⟩
    · simp [visitPred, Loop.dominators, hCall,
        read_tabulate _ hRangeU, read_tabulate _ hRangeW,
        write_tabulate _ _ hRangeW, hLess]
    · refine hPred.lower hForest hNum (Int.le_of_lt hLess)
        (Or.inr ?_)
      rcases hSource with hEq | hPath
      · rw [hEq] at hLess
        exact absurd hLess (Int.lt_irrefl _)
      · exact hPath
    · change Function.update s.semi w (s.semi u) w ≤ _
      rw [Function.update_self]
      exact Int.le_of_lt hLess
    · change Candidate g r i v
        (Function.update s.semi w (s.semi u) w)
      rw [Function.update_self]
      exact hCandidate _ (Int.le_refl _)
        (Int.le_of_lt hLess)
  · refine ⟨{ s with
        ancestor := ancestor
        label := label }, ?_, ?_, Int.le_refl _, ?_⟩
    · simp [visitPred, Loop.dominators, hCall,
        read_tabulate _ hRangeU, read_tabulate _ hRangeW,
        hLess]
    · exact ⟨hForest, hPred.semi_eq, hPred.le,
        hPred.source, hPred.bucket, hPred.dom⟩
    · exact hCandidate _ (Int.not_lt.mp hLess)
        (Int.le_refl _)

theorem Candidate.mono
    {key key' : jlong}
    (hCandidate : Candidate g r i v key)
    (hLe : key' ≤ key) :
    Candidate g r i v key' :=
  ⟨fun hLow => Int.le_trans hLe (hCandidate.low hLow),
    fun u t hLt hAnc hSemi =>
      Int.le_trans hLe (hCandidate.high u t hLt hAnc hSemi)⟩

/- The loop over a list of predecessors. -/
theorem visitPreds_spec
    (hComplete : r.Complete g)
    (hInvariant : LoopInvariant g r i s₀)
    (vs : jlongs)
    (hPred : PredInvariant g r i w s₀ s)
    (hNum : r.num w = i)
    (hNumberedW : r.Numbered w)
    (hMem : ∀ v ∈ vs, r.Numbered v ∧ g.Edge v w)
    (hFuel : g.order ≤ fuel) :
    ∃ s', vs.foldlM (visitPred fuel w)
          (s.dominators g.order) =
        some (s'.dominators g.order) ∧
      PredInvariant g r i w s₀ s' ∧
      s'.semi w ≤ s.semi w ∧
      ∀ v ∈ vs, Candidate g r i v (s'.semi w) := by
  induction vs generalizing s with
  | nil =>
      exact ⟨s, rfl, hPred, Int.le_refl _, by simp⟩
  | cons v vs ih =>
      rcases hMem v List.mem_cons_self with
        ⟨hNumbered, hEdge⟩
      rcases visitPred_spec hComplete hInvariant hPred hNum
          hNumberedW hNumbered hEdge hFuel with
        ⟨t, hVisit, hPredT, hLe, hCandidate⟩
      rcases ih hPredT
          (fun x hX => hMem x (List.mem_cons_of_mem v hX))
        with ⟨s', hFold, hPred', hLe', hAll⟩
      refine ⟨s', ?_, hPred', Int.le_trans hLe' hLe, ?_⟩
      · rw [List.foldlM_cons, hVisit]
        exact hFold
      · intro x hX
        rcases List.mem_cons.mp hX with hEq | hRest
        · rw [hEq]
          exact hCandidate.mono hLe'
        · exact hAll x hRest

/-
  When all predecessors are visited, the key of `w` is the
  number of its semidominator.
-/
theorem PredInvariant.isSemi
    (hComplete : r.Complete g)
    (hPred : PredInvariant g r i w s₀ s)
    (hNum : r.num w = i)
    (hNumbered : r.Numbered w)
    (hRoot : w ≠ 0)
    (hAll :
      ∀ v, r.Numbered v → g.Edge v w →
        Candidate g r i v (s.semi w)) :
    ∃ x, IsSemi g.Edge r.num r.Numbered x w ∧
      s.semi w = r.num x := by
  have hTree := hComplete.depthFirstTree
  have hParent := hTree.parent_lt w hNumbered hRoot
  have hLess : s.semi w ≤ r.num (r.parent w) :=
    (hAll (r.parent w)
      (hTree.parent_reached w hNumbered hRoot)
      (hTree.parent_edge w hNumbered hRoot)).low (by omega)
  rcases hPred.source with hEq | ⟨x, hReached, hPath, hEq⟩
  · rw [hEq] at hLess
    have hLess' : r.num w ≤ r.num (r.parent w) :=
      Int.ofNat_le.mp hLess
    omega
  refine ⟨x, ⟨hReached, hPath, ?_⟩, hEq⟩
  intro y hReachedY hPathY
  have hBound : s.semi w ≤ r.num y := by
    rcases hTree.semiPath_cases hReachedY hPathY with
      hEdge | ⟨u, v, hReachedV, hLtU, hAnc, hEdge, hSub⟩
    · have hCandidate := hAll y hReachedY hEdge
      by_cases hLow : r.num y ≤ i
      · exact hCandidate.low hLow
      · have hRootY :=
          hComplete.ne_root_of_num_pos (v := y) (by omega)
        rcases hTree.exists_isSemi hReachedY hRootY with
          ⟨t, hSemi⟩
        have hLe := hCandidate.high y t (by omega)
          Ancestor.refl hSemi
        have hLt := hTree.semi_lt hReachedY hRootY hSemi
        exact Int.le_trans hLe (Int.ofNat_le.mpr hLt.le)
    · have hReachedU :=
        hTree.reached_of_ancestor hAnc hReachedV
      have hRootU :=
        hComplete.ne_root_of_num_pos (v := u) (by omega)
      rcases hTree.exists_isSemi hReachedU hRootU with
        ⟨t, hSemi⟩
      have hLe := (hAll v hReachedV hEdge).high u t
        (by omega) hAnc hSemi
      exact Int.le_trans hLe
        (Int.ofNat_le.mpr (hSemi.least y hReachedY hSub))
  rw [hEq] at hBound
  exact Int.ofNat_le.mp hBound

------------------------------------------------------------
-- Buckets
------------------------------------------------------------

/-
  `w` has the number `i + 1` and the parent `p`.  A vertex
  that waits in the bucket of `p` waits for `w`, so that the
  tree path from it up to `p` is linked now.
-/
theorem Pending.links_ne_none
    (hComplete : r.Complete g)
    (hPending : Pending g r i (i + 1) p v)
    (hNumberedW : r.Numbered w)
    (hNum : r.num w = i + 1)
    (hParent : r.parent w = p)
    (hNumbered : r.Numbered v)
    {y : jlong}
    (hAnc : Ancestor 0 r.parent y v)
    (hLt : r.num p < r.num y) :
    links r i y ≠ none := by
  have hTree := hComplete.depthFirstTree
  rcases hPending.child with
    ⟨c, hPos, hParentC, hAncC, hLow⟩
  have hReachedC :=
    hTree.reached_of_ancestor hAncC hNumbered
  have hRootC := hComplete.ne_root_of_num_pos
    (v := c) (by omega)
  have hLtC := hTree.parent_lt c hReachedC hRootC
  rw [hParentC] at hLtC
  have hReachedP : r.Numbered p := hPending.semi.source
  -- Below `p`, the ancestors of `v` start at the child `c`.
  have hBelow :
      ∀ z, Ancestor 0 r.parent z v → r.num p < r.num z →
        r.num c ≤ r.num z := by
    intro z hAncZ hLtZ
    by_contra hNot
    have hAncZC :=
      hTree.ancestor_comparable hNumbered hAncZ hAncC
        (by omega)
    have hNe : z ≠ c := by
      intro hEq
      rw [hEq] at hNot
      exact hNot (Nat.le_refl _)
    have hUp := (hAncZC.of_ne hNe).2
    rw [hParentC] at hUp
    have hLe := hTree.num_le hUp hReachedP
    omega
  have hEqC : c = w := by
    have hLtV := hPending.lt
    have hAncCW : Ancestor 0 r.parent c w :=
      hTree.ancestor_of_between hNumberedW hNumbered hAncC
        (by omega) (by omega)
    by_contra hNe
    have hUp := (hAncCW.of_ne hNe).2
    rw [hParent] at hUp
    have hLe := hTree.num_le hUp hReachedP
    omega
  have hLe := hBelow y hAnc hLt
  rw [hEqC, hNum] at hLe
  rw [ne_eq, links_eq_none_iff]
  omega

/- The state in the loop over the bucket of `p`. -/
structure BucketInvariant
    (g : FlowGraph)
    (r : Search)
    (i : Nat)
    (p : jlong)
    (s₀ s : Loop) : Prop where
  forest :
    ForestInvariant g.order (links r i) r.num s.ancestor
      s.label s.semi
  semi : s.semi = s₀.semi
  bucket : s.bucket = s₀.bucket
  dom_eq : ∀ v, v ∉ s₀.bucket p → s.dom v = s₀.dom v

/- The value that the loop stores for a waiting vertex. -/
theorem resolved_of_eval
    (hComplete : r.Complete g)
    (hHigh :
      ∀ v, i < r.num v →
        ∃ x, IsSemi g.Edge r.num r.Numbered x v ∧
          s.semi v = r.num x)
    (hPending : Pending g r i (i + 1) p v)
    (hNumberedW : r.Numbered w)
    (hNum : r.num w = i + 1)
    (hParent : r.parent w = p)
    (hEval : Evaluates (links r i) s.semi v u) :
    Resolved g r v
      (if s.semi u < s.semi v then u else p) := by
  have hTree := hComplete.depthFirstTree
  have hLtV := hPending.lt
  have hNumbered := hComplete.numbered_of_num_pos
    (v := v) (by omega)
  have hInner : links r i v ≠ none := by
    rw [ne_eq, links_eq_none_iff]
    omega
  have hInnerU := hEval.inner hInner
  rw [ne_eq, links_eq_none_iff] at hInnerU
  rcases hHigh v hLtV with ⟨p', hSemiV, hKeyV⟩
  have hEqP := isSemi_unique hComplete hPending.semi hSemiV
  rw [← hEqP] at hKeyV
  rcases hHigh u (by omega) with ⟨t, hSemiU, hKeyU⟩
  have hAncU := hComplete.ancestor_of_up hEval.up
  have hNumP : r.num p < r.num w := by
    have hRootW := hComplete.ne_root_of_num_pos
      (v := w) (by omega)
    have hLt := hTree.parent_lt w hNumberedW hRootW
    rw [hParent] at hLt
    exact hLt
  have hMin :
      ∀ y q, Ancestor 0 r.parent y v →
        r.num p < r.num y →
          IsSemi g.Edge r.num r.Numbered q y →
            r.num t ≤ r.num q := by
    intro y q hAnc hLt hSemi
    have hLinked :=
      hPending.links_ne_none hComplete hNumberedW hNum
        hParent hNumbered hAnc hLt
    have hNumY := hLinked
    rw [ne_eq, links_eq_none_iff] at hNumY
    have hUp :=
      hComplete.up_of_ancestor hNumbered hAnc
        (by omega : i < r.num y)
    have hLe := hEval.least hInner y hUp hLinked
    rcases hHigh y (by omega) with ⟨q', hSemi', hKeyY⟩
    have hEqQ := isSemi_unique hComplete hSemi hSemi'
    rw [hKeyU, hKeyY, ← hEqQ] at hLe
    exact Int.ofNat_le.mp hLe
  refine ⟨p, hPending.semi, ?_⟩
  by_cases hLess : s.semi u < s.semi v
  · rw [if_pos hLess]
    rw [hKeyU, hKeyV] at hLess
    exact Or.inr ⟨by omega, hAncU, t, hSemiU,
      Int.ofNat_lt.mp hLess, hMin⟩
  · rw [if_neg hLess]
    rw [hKeyU, hKeyV] at hLess
    have hLe : r.num p ≤ r.num t :=
      Int.ofNat_le.mp (Int.not_lt.mp hLess)
    refine Or.inl ⟨rfl, ?_⟩
    intro y q hAnc hLt hSemi
    exact hLe.trans (hMin y q hAnc hLt hSemi)

/- The loop over a part of the bucket of `p`. -/
theorem visitBuckets_spec
    (hComplete : r.Complete g)
    (vs : jlongs)
    (hBucket : BucketInvariant g r i p s₀ s)
    (hHigh :
      ∀ v, i < r.num v →
        ∃ x, IsSemi g.Edge r.num r.Numbered x v ∧
          s₀.semi v = r.num x)
    (hPending :
      ∀ v ∈ vs, v ∈ s₀.bucket p ∧
        Pending g r i (i + 1) p v)
    (hNumberedW : r.Numbered w)
    (hNum : r.num w = i + 1)
    (hParent : r.parent w = p)
    (hFuel : g.order ≤ fuel) :
    ∃ s', vs.foldlM (visitBucket fuel p)
          (s.dominators g.order) =
        some (s'.dominators g.order) ∧
      BucketInvariant g r i p s₀ s' ∧
      (∀ v, Resolved g r v (s.dom v) →
        Resolved g r v (s'.dom v)) ∧
      ∀ v ∈ vs, Resolved g r v (s'.dom v) := by
  induction vs generalizing s with
  | nil =>
      exact ⟨s, rfl, hBucket, fun _ hOld => hOld, by simp⟩
  | cons v vs ih =>
      rcases hPending v List.mem_cons_self with
        ⟨hMem, hPendingV⟩
      have hLtV := hPendingV.lt
      have hNumbered := hComplete.numbered_of_num_pos
        (v := v) (by omega)
      have hRange := hComplete.inRange hNumbered
      have hRank : r.num v < fuel := by
        have hLt := hComplete.num_lt hNumbered
        have hLe := hComplete.valid.n_le_order
        omega
      rcases eval_spec fuel hBucket.forest hRange hRank with
        ⟨u, ancestor, label, hCall, hForest, hEval⟩
      have hRangeU :=
        hBucket.forest.inRange_of_up hRange hEval.up
      let d : jlong := if s.semi u < s.semi v then u else p
      let t : Loop :=
        { s with
          ancestor := ancestor
          label := label
          dom := Function.update s.dom v d }
      have hVisit :
          visitBucket fuel p (s.dominators g.order) v =
            some (t.dominators g.order) := by
        simp [visitBucket, Loop.dominators, hCall,
          read_tabulate _ hRangeU, read_tabulate _ hRange,
          write_tabulate _ _ hRange, t, d]
      have hResolved : Resolved g r v d := by
        refine resolved_of_eval hComplete ?_ hPendingV
          hNumberedW hNum hParent hEval
        rw [hBucket.semi]
        exact hHigh
      have hOld :
          ∀ x, Resolved g r x (s.dom x) →
            Resolved g r x (t.dom x) := by
        intro x hX
        by_cases hEq : x = v
        · rw [hEq]
          change Resolved g r v (Function.update s.dom v d v)
          rw [Function.update_self]
          exact hResolved
        · change Resolved g r x (Function.update s.dom v d x)
          rw [Function.update_of_ne hEq]
          exact hX
      have hBucketT : BucketInvariant g r i p s₀ t := by
        refine ⟨hForest, hBucket.semi, hBucket.bucket, ?_⟩
        intro x hNot
        have hNe : x ≠ v := by
          intro hEq
          exact hNot (hEq ▸ hMem)
        exact (Function.update_of_ne hNe _ _).trans
          (hBucket.dom_eq x hNot)
      rcases ih hBucketT (fun x hX =>
          hPending x (List.mem_cons_of_mem v hX)) with
        ⟨s', hFold, hBucket', hKeep, hAll⟩
      refine ⟨s', ?_, hBucket',
        fun x hX => hKeep x (hOld x hX), ?_⟩
      · rw [List.foldlM_cons, hVisit]
        exact hFold
      · intro x hX
        rcases List.mem_cons.mp hX with hEq | hRest
        · rw [hEq]
          refine hKeep v ?_
          change Resolved g r v (Function.update s.dom v d v)
          rw [Function.update_self]
          exact hResolved
        · exact hAll x hRest

------------------------------------------------------------
-- The Loop
------------------------------------------------------------

/- A vertex enters the bucket of its semidominator. -/
theorem pending_of_isSemi
    (hComplete : r.Complete g)
    (hNumbered : r.Numbered w)
    (hNum : r.num w = i + 1)
    (hSemi : IsSemi g.Edge r.num r.Numbered x w) :
    Pending g r i (i + 1) x w := by
  have hTree := hComplete.depthFirstTree
  have hRoot := hComplete.ne_root_of_num_pos
    (v := w) (by omega)
  have hAnc := hTree.semi_ancestor hNumbered hRoot hSemi
  have hLt := hTree.semi_lt hNumbered hRoot hSemi
  have hNe : x ≠ w := by
    intro hEq
    rw [hEq] at hLt
    exact absurd hLt (Nat.lt_irrefl _)
  rcases hAnc.exists_child hNe with
    ⟨c, hRootC, hParent, hAncC⟩
  have hReachedC :=
    hTree.reached_of_ancestor hAncC hNumbered
  have hPos := hComplete.num_pos hReachedC hRootC
  have hLe := hTree.num_le hAncC hNumbered
  exact ⟨by omega, hSemi, c, by omega, hParent, hAncC,
    by omega⟩

/-
  After the bucket of `p` is emptied, what waits elsewhere
  waits for vertices with smaller numbers.
-/
theorem Pending.lower
    (hComplete : r.Complete g)
    (hPending : Pending g r i (i + 1) x v)
    (hNumberedW : r.Numbered w)
    (hNum : r.num w = i + 1)
    (hNe : x ≠ r.parent w) :
    Pending g r i i x v := by
  rcases hPending.child with
    ⟨c, hPos, hParent, hAnc, hLe⟩
  refine ⟨hPending.lt, hPending.semi, c, hPos, hParent,
    hAnc, ?_⟩
  have hNumNe : r.num c ≠ i + 1 := by
    intro hEq
    have hReachedC := hComplete.numbered_of_num_pos
      (v := c) (by omega)
    have hEqW : c = w :=
      hComplete.depthFirstTree.inj c w hReachedC hNumberedW
        (by omega)
    rw [hEqW] at hParent
    exact hNe hParent.symm
  omega

/- `w` enters the bucket of `x` and is linked to `p`. -/
def Loop.enter
    (s : Loop)
    (w x p : jlong) : Loop :=
  { s with
    bucket := Function.update s.bucket x (s.bucket x ++ [w])
    ancestor := Function.update s.ancestor w p }

theorem Loop.mem_bucket_enter
    (s : Loop)
    {y : jlong} :
    v ∈ (s.enter w x p).bucket y ↔
      v ∈ s.bucket y ∨ (y = x ∧ v = w) := by
  unfold Loop.enter
  dsimp only
  by_cases hEq : y = x
  · rw [hEq, Function.update_self]
    simp
  · rw [Function.update_of_ne hEq]
    simp [hEq]

/- The bucket of `p` is emptied. -/
def Loop.clear
    (s : Loop)
    (p : jlong) : Loop :=
  { s with bucket := Function.update s.bucket p [] }

theorem Loop.mem_bucket_clear
    (s : Loop)
    {y : jlong} :
    v ∈ (s.clear p).bucket y ↔ y ≠ p ∧ v ∈ s.bucket y := by
  unfold Loop.clear
  dsimp only
  by_cases hEq : y = p
  · rw [hEq, Function.update_self]
    simp
  · rw [Function.update_of_ne hEq]
    simp [hEq]

/- The reads and writes of an iteration. -/
theorem mainStep_eq
    {t s' : Loop}
    (hComplete : r.Complete g)
    (hLt : i + 1 < r.n)
    (hVertex : r.nth (i + 1) = w)
    (hParent : r.parent w = p)
    (hNumberedP : r.Numbered p)
    (hSource : r.Numbered x)
    (hKey : t.semi w = r.num x)
    (hPreds :
      (r.pred w).foldlM (visitPred fuel w)
          (s.dominators g.order) =
        some (t.dominators g.order))
    (hLink :
      link p w (forestOf g.order t.ancestor t.label) =
        some (forestOf g.order
          (Function.update t.ancestor w p) t.label))
    (hBuckets :
      ((t.enter w x p).bucket p).foldlM (visitBucket fuel p)
          ((t.enter w x p).dominators g.order) =
        some (s'.dominators g.order)) :
    mainStep fuel (r.numbering g.order) (i + 1 : Nat)
        (s.dominators g.order) =
      some ((s'.clear p).dominators g.order) := by
  have hNumbered : r.Numbered w := ⟨i + 1, hLt, hVertex⟩
  have hRange := hComplete.inRange hNumbered
  have hRangeP := hComplete.inRange hNumberedP
  have hRangeX := hComplete.inRange hSource
  have hRangeI : InRange g.order ((i + 1 : Nat) : jlong) :=
    inRange_natCast.mpr
      (hLt.trans_le hComplete.valid.n_le_order)
  have hNumX : InRange g.order (r.num x : jlong) := by
    have hLtX := hComplete.num_lt hSource
    have hLeN := hComplete.valid.n_le_order
    exact inRange_natCast.mpr (by omega)
  have hReadW :
      read (r.numbering g.order).vertex (i + 1 : Nat) =
        some w :=
    (read_tabulate _ hRangeI).trans (congrArg some hVertex)
  have hReadPred :
      read (r.numbering g.order).pred w = some (r.pred w) :=
    read_tabulate _ hRange
  have hReadX :
      read (r.numbering g.order).vertex (t.semi w) =
        some x := by
    rw [hKey]
    exact (read_tabulate _ hNumX).trans
      (congrArg some (hComplete.nth_num hSource))
  have hReadP :
      read (r.numbering g.order).parent w = some p :=
    (read_tabulate _ hRange).trans (congrArg some hParent)
  have hSemiW :
      read (t.dominators g.order).semi w =
        some (t.semi w) :=
    read_tabulate _ hRange
  have hReadBucket :
      read (t.dominators g.order).bucket x =
        some (t.bucket x) :=
    read_tabulate _ hRangeX
  have hWriteBucket :
      write (t.dominators g.order).bucket x
          (t.bucket x ++ [w]) =
        some (t.enter w x p |>.dominators g.order).bucket :=
    write_tabulate _ _ hRangeX
  have hLink' :
      link p w (t.dominators g.order).forest =
        some ((t.enter w x p).dominators g.order).forest :=
    hLink
  have hReadBucketP :
      read ((t.enter w x p).dominators g.order).bucket p =
        some ((t.enter w x p).bucket p) :=
    read_tabulate _ hRangeP
  have hClear :
      write (s'.dominators g.order).bucket p [] =
        some ((s'.clear p).dominators g.order).bucket :=
    write_tabulate _ _ hRangeP
  unfold mainStep
  rw [hReadW]
  simp only [Option.bind_eq_bind, Option.bind_some,
    hReadPred, hPreds, hSemiW, hReadX, hReadP, hReadBucket,
    hWriteBucket, hLink', hReadBucketP]
  change (((t.enter w x p).bucket p).foldlM
    (visitBucket fuel p)
    ((t.enter w x p).dominators g.order)).bind _ = _
  rw [hBuckets, Option.bind_some, hClear]
  rfl

/- The vertices above `i`, but for `w`. -/
theorem lt_num_of_ne
    (hComplete : r.Complete g)
    (hNumbered : r.Numbered w)
    (hNum : r.num w = i + 1)
    (hLt : i < r.num v)
    (hNe : v ≠ w) :
    i + 1 < r.num v := by
  have hNumNe : r.num v ≠ i + 1 := by
    intro hEq
    exact hNe (hComplete.depthFirstTree.inj v w
      (hComplete.numbered_of_num_pos (by omega)) hNumbered
      (by omega))
  omega

section Entered

variable {t : Loop}
variable (hComplete : r.Complete g)
variable (hInvariant : LoopInvariant g r (i + 1) s)
variable (hPred : PredInvariant g r (i + 1) w s t)
variable (hNumbered : r.Numbered w)
variable (hNum : r.num w = i + 1)
variable (hSemi : IsSemi g.Edge r.num r.Numbered x w)

include hComplete hInvariant hPred hNumbered hNum hSemi

/- The key of `w` is final, as those above it. -/
theorem PredInvariant.semi_high
    (hKey : t.semi w = r.num x)
    (hLt : i < r.num v) :
    ∃ y, IsSemi g.Edge r.num r.Numbered y v ∧
      t.semi v = r.num y := by
  by_cases hEq : v = w
  · rw [hEq]
    exact ⟨x, hSemi, hKey⟩
  · rcases hInvariant.semi_high v
        (lt_num_of_ne hComplete hNumbered hNum hLt hEq) with
      ⟨y, hSemiY, hKeyY⟩
    exact ⟨y, hSemiY, (hPred.semi_eq v hEq).trans hKeyY⟩

theorem PredInvariant.pending
    {y : jlong}
    (hMem : v ∈ (t.enter w x p).bucket y) :
    Pending g r i (i + 1) y v := by
  rcases t.mem_bucket_enter.mp hMem with
    hOld | ⟨hEqY, hEqV⟩
  · rw [hPred.bucket] at hOld
    have hPendingV := hInvariant.pending y v hOld
    have hLtV := hPendingV.lt
    exact ⟨by omega, hPendingV.semi, hPendingV.child⟩
  · rw [hEqY, hEqV]
    exact pending_of_isSemi hComplete hNumbered hNum hSemi

/- The invariant after the bucket of the parent. -/
theorem BucketInvariant.loopInvariant
    {s' : Loop}
    (hKey : t.semi w = r.num x)
    (hParent : r.parent w = p)
    (hBucket :
      BucketInvariant g r i p (t.enter w x p) s')
    (hKeep :
      ∀ v, Resolved g r v (t.dom v) →
        Resolved g r v (s'.dom v))
    (hResolved :
      ∀ v ∈ (t.enter w x p).bucket p,
        Resolved g r v (s'.dom v)) :
    LoopInvariant g r i (s'.clear p) := by
  have hEqSemi : s'.semi = t.semi := hBucket.semi
  constructor
  · exact hBucket.forest
  · intro v hNumberedV hLow
    have hNe : v ≠ w := by
      intro hEq
      rw [hEq] at hLow
      omega
    exact (congrFun hEqSemi v).trans
      ((hPred.semi_eq v hNe).trans
        (hInvariant.semi_low v hNumberedV (by omega)))
  · intro v hLtV
    rcases hPred.semi_high hComplete hInvariant hNumbered
        hNum hSemi hKey hLtV with ⟨y, hSemiY, hKeyY⟩
    exact ⟨y, hSemiY, (congrFun hEqSemi v).trans hKeyY⟩
  · intro y v hMem
    rcases s'.mem_bucket_clear.mp hMem with ⟨hNe, hMemV⟩
    rw [hBucket.bucket] at hMemV
    rw [← hParent] at hNe
    exact (hPred.pending hComplete hInvariant hNumbered hNum
      hSemi hMemV).lower hComplete hNumbered hNum hNe
  · intro v hLtV
    have hWaiting :
        ∀ y, v ∈ (t.enter w x p).bucket y →
          (∃ z, v ∈ (s'.clear p).bucket z) ∨
            Resolved g r v (s'.dom v) := by
      intro y hMem
      by_cases hEq : y = p
      · rw [hEq] at hMem
        exact Or.inr (hResolved v hMem)
      · refine Or.inl ⟨y, s'.mem_bucket_clear.mpr ⟨hEq, ?_⟩⟩
        rw [hBucket.bucket]
        exact hMem
    by_cases hEq : v = w
    · exact hWaiting x
        (t.mem_bucket_enter.mpr (Or.inr ⟨rfl, hEq⟩))
    · rcases hInvariant.resolved v
          (lt_num_of_ne hComplete hNumbered hNum hLtV hEq)
        with ⟨y, hMem⟩ | hDone
      · rw [← hPred.bucket] at hMem
        exact hWaiting y
          (t.mem_bucket_enter.mpr (Or.inl hMem))
      · rw [← hPred.dom] at hDone
        exact Or.inr (hKeep v hDone)
  · intro v hNot
    have hOutside : v ∉ (t.enter w x p).bucket p := by
      intro hMem
      have hLtV := (hPred.pending hComplete hInvariant
        hNumbered hNum hSemi hMem).lt
      exact hNot (hComplete.numbered_of_num_pos (by omega))
    have hEqDom : s'.dom v = s.dom v :=
      (hBucket.dom_eq v hOutside).trans
        (congrFun hPred.dom v)
    exact hEqDom.trans (hInvariant.untouched v hNot)

end Entered

/- One iteration of the main loop. -/
theorem mainStep_spec
    (hComplete : r.Complete g)
    (hInvariant : LoopInvariant g r (i + 1) s)
    (hLt : i + 1 < r.n)
    (hFuel : g.order ≤ fuel) :
    ∃ s', mainStep fuel (r.numbering g.order) (i + 1 : Nat)
          (s.dominators g.order) =
        some (s'.dominators g.order) ∧
      LoopInvariant g r i s' := by
  have hTree := hComplete.depthFirstTree
  let w : jlong := r.nth (i + 1)
  have hNum : r.num w = i + 1 := hComplete.num_nth hLt
  have hNumbered : r.Numbered w := ⟨i + 1, hLt, rfl⟩
  have hRoot : w ≠ 0 :=
    hComplete.ne_root_of_num_pos (by omega)
  let p : jlong := r.parent w
  have hNumberedP : r.Numbered p :=
    hTree.parent_reached w hNumbered hRoot
  have hNumP := hTree.parent_lt w hNumbered hRoot
  -- The semidominator of `w`.
  rcases visitPreds_spec hComplete hInvariant (r.pred w)
      (PredInvariant.init hInvariant hNumbered hNum)
      hNum hNumbered
      (fun v hMem => hComplete.mem_pred_iff.mp hMem) hFuel
    with ⟨t, hPreds, hPred, _, hAll⟩
  rcases hPred.isSemi hComplete hNum hNumbered hRoot
      (fun v hV hEdge =>
        hAll v (hComplete.mem_pred_iff.mpr ⟨hV, hEdge⟩))
    with ⟨x, hSemi, hKey⟩
  -- The bucket of the semidominator, and the link.
  rcases link_spec hPred.forest (hComplete.inRange hNumbered)
      (hComplete.inRange hNumberedP)
      (links_eq_none_iff.mpr hNum.le) hNumP with
    ⟨hLink, hForest⟩
  rw [hComplete.update_links hLt] at hForest
  have hBucket :
      BucketInvariant g r i p (t.enter w x p)
        (t.enter w x p) :=
    ⟨hForest, rfl, rfl, fun _ _ => rfl⟩
  have hHigh :
      ∀ v, i < r.num v →
        ∃ y, IsSemi g.Edge r.num r.Numbered y v ∧
          t.semi v = r.num y :=
    fun v hLtV =>
      hPred.semi_high hComplete hInvariant hNumbered hNum
        hSemi hKey hLtV
  -- The bucket of the parent.
  rcases visitBuckets_spec hComplete
      ((t.enter w x p).bucket p) hBucket hHigh
      (fun v hMem =>
        ⟨hMem, hPred.pending hComplete hInvariant hNumbered
          hNum hSemi hMem⟩)
      hNumbered hNum rfl hFuel with
    ⟨s', hBuckets, hBucket', hKeep, hResolved⟩
  exact ⟨s'.clear p,
    mainStep_eq hComplete hLt rfl rfl hNumberedP
      hSemi.source hKey hPreds hLink hBuckets,
    BucketInvariant.loopInvariant hComplete hInvariant hPred
      hNumbered hNum hSemi hKey rfl hBucket' hKeep
      hResolved⟩

/- The iterations from `i` down to 1. -/
theorem mainLoop_spec
    (hComplete : r.Complete g)
    (hFuel : g.order ≤ fuel)
    (i : Nat)
    (s : Loop)
    (hInvariant : LoopInvariant g r i s)
    (hLt : i < r.n) :
    ∃ s', mainLoop fuel (r.numbering g.order) i
          (s.dominators g.order) =
        some (s'.dominators g.order) ∧
      LoopInvariant g r 0 s' := by
  induction i generalizing s with
  | zero => exact ⟨s, rfl, hInvariant⟩
  | succ i ih =>
      rcases mainStep_spec hComplete hInvariant hLt hFuel
        with ⟨t, hStep, hInvariantT⟩
      rcases ih t hInvariantT (by omega) with
        ⟨s', hLoop, hInvariant'⟩
      refine ⟨s', ?_, hInvariant'⟩
      unfold mainLoop
      rw [hStep]
      exact hLoop

/- In the end every vertex but the root is resolved. -/
theorem LoopInvariant.resolved_of_ne_root
    (hComplete : r.Complete g)
    (hInvariant : LoopInvariant g r 0 s)
    (hNumbered : r.Numbered w)
    (hRoot : w ≠ 0) :
    Resolved g r w (s.dom w) := by
  have hPos := hComplete.num_pos hNumbered hRoot
  rcases hInvariant.resolved w hPos with
    ⟨x, hMem⟩ | hResolved
  · rcases (hInvariant.pending x w hMem).child with
      ⟨c, hNe, _, _, hLe⟩
    omega
  · exact hResolved

end Steps

------------------------------------------------------------
-- The Initial State
------------------------------------------------------------

def Loop.initial (r : Search) : Loop where
  semi := r.semi
  ancestor := fun _ => -1
  label := fun v => v
  bucket := fun _ => []
  dom := fun _ => 0

theorem Loop.initial_dominators
    (r : Search)
    (size : Nat) :
    (Loop.initial r).dominators size =
      initialDominators size (tabulate size r.semi) := by
  simp only [Loop.initial, Loop.dominators,
    initialDominators, forestOf, initialForest, zeros,
    tabulate_const]
  rfl

theorem Loop.initial_invariant
    {g : FlowGraph}
    {r : Search}
    (hComplete : r.Complete g) :
    LoopInvariant g r (r.n - 1) (Loop.initial r) := by
  have hHigh : ∀ v, ¬ r.n - 1 < r.num v := by
    intro v hLt
    have hNumbered :=
      hComplete.numbered_of_num_pos (v := v) (by omega)
    have hLtN := hComplete.num_lt hNumbered
    omega
  have hLinks : links r (r.n - 1) = fun _ => none := by
    funext v
    exact if_neg (hHigh v)
  constructor
  · rw [hLinks]
    refine ⟨Compressed.init _, ?_, ?_⟩
    · intro v p hNone
      cases hNone
    · intro v p hNone
      cases hNone
  · intro v hNumbered _
    exact hComplete.semi_eq hNumbered
  · intro v hLt
    exact absurd hLt (hHigh v)
  · intro x w hMem
    exact absurd hMem List.not_mem_nil
  · intro w hLt
    exact absurd hLt (hHigh w)
  · intro w _
    rfl

end DominatorTree

end MemoryAgent
