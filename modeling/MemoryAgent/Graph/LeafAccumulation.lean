import Mathlib.Algebra.Order.BigOperators.Group.Finset
import Mathlib.Algebra.Order.Group.Defs
import Mathlib.Algebra.Order.Group.Int
import Mathlib.Data.Finset.Max
import MemoryAgent.Graph.PathCompression

/-
  Sums over the subtrees of a forest, computed leaf by leaf.

  Every node has a total, which starts as its size, and the
  number of its children that are not yet done.  A node
  whose children are all done may add its total to that of
  its parent.  Some nodes never do, because they never enter
  the queue.  In the end the totals are the sums over the
  subtrees whose nodes all enter it.

  Key definitions include:
    * `LeafAccumulation.Forest`
    * `LeafAccumulation.absorbed`
    * `LeafAccumulation.Stripped`

  Main results:
    * `LeafAccumulation.Stripped.step`
    * `LeafAccumulation.Stripped.step_root`
    * `LeafAccumulation.Stripped.total_of_empty`
    * `LeafAccumulation.Stripped.enters_of_total`
-/

------------------------------------------------------------
-- Subtrees
------------------------------------------------------------

namespace LeafAccumulation

open PathCompression

variable {V : Type}
variable [DecidableEq V]

/- A finite forest: parents are nodes of lower rank. -/
structure Forest (V : Type) where
  nodes : Finset V
  parent : V → Option V
  rank : V → Nat
  ranked : Ranked parent rank
  closed :
    ∀ v p, v ∈ nodes → parent v = some p → p ∈ nodes

/- The nodes that contribute to the total of `d`. -/
def Absorbed
    (f : Forest V)
    (done : Finset V)
    (d w : V) : Prop :=
  w = d ∨ ∃ c ∈ done, f.parent c = some d ∧ Up f.parent w c

open scoped Classical in
noncomputable def absorbed
    (f : Forest V)
    (done : Finset V)
    (d : V) : Finset V :=
  f.nodes.filter (Absorbed f done d)

open scoped Classical in
noncomputable def subtree
    (f : Forest V)
    (d : V) : Finset V :=
  f.nodes.filter (fun w => Up f.parent w d)

def waitingChildren
    (f : Forest V)
    (done : Finset V)
    (d : V) : Finset V :=
  f.nodes.filter
    (fun c => f.parent c = some d ∧ c ∉ done)

/-
  The nodes in `done` have passed on their totals, and those
  in `queue` have no child left to wait for.  A node without
  such a child is in the queue or done, provided that it
  `enters` the queue.
-/
structure Stripped
    (f : Forest V)
    (size : V → Int)
    (enters : V → Prop)
    (done : Finset V)
    (queue : List V)
    (count total : V → Int) : Prop where
  nodup : queue.Nodup
  queue_mem : ∀ v ∈ queue, v ∈ f.nodes ∧ v ∉ done
  queue_enters : ∀ v ∈ queue, enters v
  done_mem : ∀ v ∈ done, v ∈ f.nodes
  done_enters : ∀ v ∈ done, enters v
  children_done :
    ∀ c ∈ f.nodes, ∀ d, f.parent c = some d →
      d ∈ done ∨ d ∈ queue → c ∈ done
  count_eq :
    ∀ d ∈ f.nodes, count d = (waitingChildren f done d).card
  ready :
    ∀ v ∈ f.nodes, enters v → f.parent v ≠ none →
      count v = 0 → v ∈ done ∨ v ∈ queue
  total_eq :
    ∀ d ∈ f.nodes,
      total d = ∑ w ∈ absorbed f done d, size w

section Subtrees

variable {f : Forest V}
variable {done : Finset V}
variable {c d v w : V}

omit [DecidableEq V] in
theorem mem_absorbed :
    w ∈ absorbed f done d ↔
      w ∈ f.nodes ∧ Absorbed f done d w := by
  classical
  unfold absorbed
  exact Finset.mem_filter

omit [DecidableEq V] in
theorem mem_subtree :
    w ∈ subtree f d ↔ w ∈ f.nodes ∧ Up f.parent w d := by
  classical
  unfold subtree
  exact Finset.mem_filter

theorem mem_waitingChildren :
    c ∈ waitingChildren f done d ↔
      c ∈ f.nodes ∧ f.parent c = some d ∧ c ∉ done := by
  unfold waitingChildren
  exact Finset.mem_filter

omit [DecidableEq V] in
theorem up_mem_nodes
    (hMem : w ∈ f.nodes)
    (hUp : Up f.parent w v) :
    v ∈ f.nodes := by
  induction hUp with
  | refl => exact hMem
  | tail _ hStep ih => exact f.closed _ _ ih hStep

omit [DecidableEq V] in
/- The last step of a path from below. -/
theorem up_iff_eq_or_child :
    Up f.parent w d ↔
      w = d ∨
        ∃ c, f.parent c = some d ∧ Up f.parent w c := by
  constructor
  · intro hUp
    rcases Relation.ReflTransGen.cases_tail hUp with
      hEq | ⟨c, hUpC, hStep⟩
    · exact Or.inl hEq.symm
    · exact Or.inr ⟨c, hStep, hUpC⟩
  · intro hCases
    rcases hCases with hEq | ⟨c, hParent, hUp⟩
    · rw [hEq]
      exact Up.refl d
    · exact hUp.trans (Up.single hParent)

omit [DecidableEq V] in
/- A node without waiting children holds its subtree. -/
theorem absorbed_eq_subtree
    (hDone :
      ∀ c ∈ f.nodes, f.parent c = some d → c ∈ done) :
    absorbed f done d = subtree f d := by
  ext w
  rw [mem_absorbed, mem_subtree]
  apply and_congr_right
  intro hMem
  rw [up_iff_eq_or_child]
  apply or_congr_right
  constructor
  · rintro ⟨c, _, hParent, hUp⟩
    exact ⟨c, hParent, hUp⟩
  · rintro ⟨c, hParent, hUp⟩
    exact ⟨c, hDone c (up_mem_nodes hMem hUp) hParent,
      hParent, hUp⟩

/- Children of one node have disjoint subtrees. -/
theorem child_unique
    {a b : V}
    (hLeft : f.parent a = some d)
    (hRight : f.parent b = some d)
    (hUpA : Up f.parent w a)
    (hUpB : Up f.parent w b) :
    a = b := by
  have hNot :
      ∀ {x y : V}, f.parent x = some d →
        f.parent y = some d → Up f.parent x y → x = y := by
    intro x y hX hY hUp
    by_contra hNe
    rcases hUp.parent_of_ne hNe with ⟨p, hParent, hUpP⟩
    rw [hX] at hParent
    cases hParent
    have hLe := hUpP.rank_le f.ranked
    have hLt := f.ranked y d hY
    omega
  rcases hUpA.total hUpB with hAB | hBA
  · exact hNot hLeft hRight hAB
  · exact (hNot hRight hLeft hBA).symm

/- The subtree of a new child joins what `d` holds. -/
theorem absorbed_insert
    (hParent : f.parent v = some d) :
    absorbed f (insert v done) d =
      absorbed f done d ∪ subtree f v := by
  ext w
  rw [Finset.mem_union, mem_absorbed, mem_absorbed,
    mem_subtree]
  constructor
  · rintro ⟨hMem, hEq | ⟨c, hMemC, hParentC, hUp⟩⟩
    · exact Or.inl ⟨hMem, Or.inl hEq⟩
    · rcases Finset.mem_insert.mp hMemC with hEq | hOld
      · rw [hEq] at hUp
        exact Or.inr ⟨hMem, hUp⟩
      · exact Or.inl
          ⟨hMem, Or.inr ⟨c, hOld, hParentC, hUp⟩⟩
  · rintro (⟨hMem, hEq | ⟨c, hMemC, hParentC, hUp⟩⟩ |
      ⟨hMem, hUp⟩)
    · exact ⟨hMem, Or.inl hEq⟩
    · exact ⟨hMem, Or.inr
        ⟨c, Finset.mem_insert_of_mem hMemC, hParentC, hUp⟩⟩
    · exact ⟨hMem, Or.inr
        ⟨v, Finset.mem_insert_self v done, hParent, hUp⟩⟩

theorem absorbed_disjoint
    (hParent : f.parent v = some d)
    (hNew : v ∉ done) :
    Disjoint (absorbed f done d) (subtree f v) := by
  apply Finset.disjoint_left.mpr
  intro w hLeft hRight
  have hUp := (mem_subtree.mp hRight).2
  rcases (mem_absorbed.mp hLeft).2 with
    hEq | ⟨c, hMem, hParentC, hUpC⟩
  · rw [hEq] at hUp
    have hLe := hUp.rank_le f.ranked
    have hLt := f.ranked v d hParent
    omega
  · have hEq := child_unique hParentC hParent hUpC hUp
    rw [hEq] at hMem
    exact hNew hMem

theorem absorbed_insert_of_ne
    (hParent : f.parent v ≠ some d) :
    absorbed f (insert v done) d = absorbed f done d := by
  ext w
  rw [mem_absorbed, mem_absorbed]
  apply and_congr_right
  intro _
  apply or_congr_right
  constructor
  · rintro ⟨c, hMem, hParentC, hUp⟩
    rcases Finset.mem_insert.mp hMem with hEq | hOld
    · rw [hEq] at hParentC
      exact absurd hParentC hParent
    · exact ⟨c, hOld, hParentC, hUp⟩
  · rintro ⟨c, hMem, hParentC, hUp⟩
    exact ⟨c, Finset.mem_insert_of_mem hMem, hParentC, hUp⟩

theorem waitingChildren_insert :
    waitingChildren f (insert v done) d =
      (waitingChildren f done d).erase v := by
  ext c
  rw [Finset.mem_erase, mem_waitingChildren,
    mem_waitingChildren, Finset.mem_insert]
  tauto

theorem card_waitingChildren_insert
    (hMem : v ∈ f.nodes)
    (hNew : v ∉ done)
    (hParent : f.parent v = some d) :
    ((waitingChildren f (insert v done) d).card : Int) =
      (waitingChildren f done d).card - 1 := by
  have hChild : v ∈ waitingChildren f done d :=
    mem_waitingChildren.mpr ⟨hMem, hParent, hNew⟩
  have hPos := Finset.card_pos.mpr ⟨v, hChild⟩
  rw [waitingChildren_insert, Finset.card_erase_of_mem hChild]
  omega

theorem waitingChildren_insert_of_ne
    (hParent : f.parent v ≠ some d) :
    waitingChildren f (insert v done) d =
      waitingChildren f done d := by
  rw [waitingChildren_insert]
  apply Finset.erase_eq_of_notMem
  intro hChild
  exact hParent (mem_waitingChildren.mp hChild).2.1

end Subtrees

------------------------------------------------------------
-- Steps
------------------------------------------------------------

namespace Stripped

variable {f : Forest V}
variable {size : V → Int}
variable {enters : V → Prop}
variable {done : Finset V}
variable {queue : List V}
variable {count total : V → Int}
variable {c d v w : V}

/- A leaf of the queue holds the sum of its subtree. -/
theorem total_head
    (hStripped :
      Stripped f size enters done (v :: queue) count total) :
    total v = ∑ w ∈ subtree f v, size w := by
  have hHead : v ∈ v :: queue := List.mem_cons_self
  have hMem := (hStripped.queue_mem v hHead).1
  rw [hStripped.total_eq v hMem, absorbed_eq_subtree]
  intro c hMemC hParent
  exact hStripped.children_done c hMemC v hParent
    (Or.inr hHead)

theorem mem_rest
    (hStripped :
      Stripped f size enters done (v :: queue) count total)
    (hMem : w ∈ queue) :
    w ∈ f.nodes ∧ w ∉ insert v done := by
  rcases hStripped.queue_mem w
      (List.mem_cons_of_mem v hMem) with ⟨hNode, hNew⟩
  refine ⟨hNode, ?_⟩
  intro hInsert
  rcases Finset.mem_insert.mp hInsert with hEq | hOld
  · rw [hEq] at hMem
    exact (List.nodup_cons.mp hStripped.nodup).1 hMem
  · exact hNew hOld

theorem mem_nodes_of_insert
    (hStripped :
      Stripped f size enters done (v :: queue) count total)
    (hMem : w ∈ insert v done) :
    w ∈ f.nodes := by
  rcases Finset.mem_insert.mp hMem with hEq | hOld
  · rw [hEq]
    exact (hStripped.queue_mem v List.mem_cons_self).1
  · exact hStripped.done_mem w hOld

/- Moving the head to `done` leaves the others where they are. -/
theorem mem_insert_or_rest :
    w ∈ insert v done ∨ w ∈ queue ↔
      w ∈ done ∨ w ∈ v :: queue := by
  rw [Finset.mem_insert, List.mem_cons]
  tauto

theorem children_insert
    (hStripped :
      Stripped f size enters done (v :: queue) count total)
    (hMem : c ∈ f.nodes)
    (hParent : f.parent c = some d)
    (hCases : d ∈ insert v done ∨ d ∈ queue) :
    c ∈ insert v done :=
  Finset.mem_insert_of_mem
    (hStripped.children_done c hMem d hParent
      (mem_insert_or_rest.mp hCases))

theorem ready_insert
    (hStripped :
      Stripped f size enters done (v :: queue) count total)
    (hMem : w ∈ f.nodes)
    (hEnters : enters w)
    (hInner : f.parent w ≠ none)
    (hZero : count w = 0) :
    w ∈ insert v done ∨ w ∈ queue :=
  mem_insert_or_rest.mpr
    (hStripped.ready w hMem hEnters hInner hZero)

theorem enters_rest
    (hStripped :
      Stripped f size enters done (v :: queue) count total)
    (hMem : w ∈ queue) :
    enters w :=
  hStripped.queue_enters w (List.mem_cons_of_mem v hMem)

theorem enters_insert
    (hStripped :
      Stripped f size enters done (v :: queue) count total)
    (hMem : w ∈ insert v done) :
    enters w := by
  rcases Finset.mem_insert.mp hMem with hEq | hOld
  · rw [hEq]
    exact hStripped.queue_enters v List.mem_cons_self
  · exact hStripped.done_enters w hOld

/- A root that leaves the queue passes nothing on. -/
theorem step_root
    (hStripped :
      Stripped f size enters done (v :: queue) count total)
    (hRoot : f.parent v = none) :
    Stripped f size enters (insert v done) queue count total := by
  have hNe : ∀ d, f.parent v ≠ some d := by
    intro d hSome
    rw [hRoot] at hSome
    cases hSome
  constructor
  · exact (List.nodup_cons.mp hStripped.nodup).2
  · exact fun x hMem => hStripped.mem_rest hMem
  · exact fun x hMem => hStripped.enters_rest hMem
  · exact fun x hMem => hStripped.mem_nodes_of_insert hMem
  · exact fun x hMem => hStripped.enters_insert hMem
  · exact fun c hMem d hParent hCases =>
      hStripped.children_insert hMem hParent hCases
  · intro d hMem
    rw [hStripped.count_eq d hMem,
      waitingChildren_insert_of_ne (hNe d)]
  · exact fun x hMem hEnters hInner hZero =>
      hStripped.ready_insert hMem hEnters hInner hZero
  · intro d hMem
    rw [hStripped.total_eq d hMem,
      absorbed_insert_of_ne (hNe d)]

/- The count of the parent decreases with its new child. -/
theorem count_insert
    (hStripped :
      Stripped f size enters done (v :: queue) count total)
    (hParent : f.parent v = some d)
    (hMem : w ∈ f.nodes) :
    Function.update count d (count d - 1) w =
      (waitingChildren f (insert v done) w).card := by
  rcases hStripped.queue_mem v List.mem_cons_self with
    ⟨hNode, hNew⟩
  by_cases hEq : w = d
  · rw [hEq] at hMem ⊢
    rw [Function.update_self,
      card_waitingChildren_insert hNode hNew hParent,
      hStripped.count_eq d hMem]
  · have hNe : f.parent v ≠ some w := by
      rw [hParent]
      exact fun hSome => hEq (Option.some.inj hSome).symm
    rw [Function.update_of_ne hEq,
      waitingChildren_insert_of_ne hNe]
    exact hStripped.count_eq w hMem

/- The total of the parent increases by that of the child. -/
theorem total_insert
    (hStripped :
      Stripped f size enters done (v :: queue) count total)
    (hParent : f.parent v = some d)
    (hMem : w ∈ f.nodes) :
    Function.update total d (total d + total v) w =
      ∑ x ∈ absorbed f (insert v done) w, size x := by
  have hNew := (hStripped.queue_mem v List.mem_cons_self).2
  by_cases hEq : w = d
  · rw [hEq] at hMem ⊢
    rw [Function.update_self, absorbed_insert hParent,
      Finset.sum_union (absorbed_disjoint hParent hNew),
      ← hStripped.total_eq d hMem, ← hStripped.total_head]
  · have hNe : f.parent v ≠ some w := by
      rw [hParent]
      exact fun hSome => hEq (Option.some.inj hSome).symm
    rw [Function.update_of_ne hEq,
      absorbed_insert_of_ne hNe]
    exact hStripped.total_eq w hMem

/-
  A leaf adds its total to its parent, which joins the queue
  when this was its last child.
-/
theorem step
    (hStripped :
      Stripped f size enters done (v :: queue) count total)
    (hParent : f.parent v = some d)
    (hEnters : enters d) :
    Stripped f size enters (insert v done)
      (if count d - 1 = 0 then queue ++ [d] else queue)
      (Function.update count d (count d - 1))
      (Function.update total d (total d + total v)) := by
  rcases hStripped.queue_mem v List.mem_cons_self with
    ⟨hNode, hNew⟩
  have hNodeD : d ∈ f.nodes := f.closed v d hNode hParent
  -- The child `v` was not done, so that `d` still waits.
  have hWaits : ¬ (d ∈ insert v done ∨ d ∈ queue) := by
    intro hCases
    exact hNew
      (hStripped.children_done v hNode d hParent
        (mem_insert_or_rest.mp hCases))
  have hCountD := hStripped.count_insert hParent hNodeD
  rw [Function.update_self] at hCountD
  have hQueue :
      ∀ x, x ∈ (if count d - 1 = 0 then queue ++ [d]
          else queue) ↔
        x ∈ queue ∨ (x = d ∧ count d - 1 = 0) := by
    intro x
    split
    · rename_i hZero
      simp [hZero]
    · rename_i hNe
      simp [hNe]
  constructor
  · split
    · apply List.nodup_append.mpr
      refine ⟨(List.nodup_cons.mp hStripped.nodup).2,
        List.nodup_singleton d, ?_⟩
      intro a hA b hB hEq
      rw [List.mem_singleton.mp hB] at hEq
      rw [hEq] at hA
      exact hWaits (Or.inr hA)
    · exact (List.nodup_cons.mp hStripped.nodup).2
  · intro x hMem
    rcases (hQueue x).mp hMem with hOld | ⟨hEq, _⟩
    · exact hStripped.mem_rest hOld
    · rw [hEq]
      exact ⟨hNodeD, fun hDone => hWaits (Or.inl hDone)⟩
  · intro x hMem
    rcases (hQueue x).mp hMem with hOld | ⟨hEq, _⟩
    · exact hStripped.enters_rest hOld
    · rw [hEq]
      exact hEnters
  · exact fun x hMem => hStripped.mem_nodes_of_insert hMem
  · exact fun x hMem => hStripped.enters_insert hMem
  · intro c hMemC x hParentC hCases
    rw [hQueue, ← or_assoc] at hCases
    rcases hCases with hBefore | ⟨hEq, hZero⟩
    · exact hStripped.children_insert hMemC hParentC hBefore
    · -- No child of `d` is left, since its count is zero.
      by_contra hNot
      rw [hEq] at hParentC
      have hChild :
          c ∈ waitingChildren f (insert v done) d :=
        mem_waitingChildren.mpr ⟨hMemC, hParentC, hNot⟩
      have hPos := Finset.card_pos.mpr ⟨c, hChild⟩
      omega
  · exact fun x hMem => hStripped.count_insert hParent hMem
  · intro x hMem hEntersX hInner hZero
    rw [hQueue]
    by_cases hEq : x = d
    · rw [hEq, Function.update_self] at hZero
      exact Or.inr (Or.inr ⟨hEq, hZero⟩)
    · rw [Function.update_of_ne hEq] at hZero
      exact
        (hStripped.ready_insert hMem hEntersX hInner
          hZero).imp_right Or.inl
  · exact fun x hMem => hStripped.total_insert hParent hMem

/- Only the counts and totals of nodes matter. -/
theorem congr
    {count' total' : V → Int}
    (hStripped : Stripped f size enters done queue count total)
    (hCount : ∀ v ∈ f.nodes, count' v = count v)
    (hTotal : ∀ v ∈ f.nodes, total' v = total v) :
    Stripped f size enters done queue count' total' := by
  constructor
  · exact hStripped.nodup
  · exact hStripped.queue_mem
  · exact hStripped.queue_enters
  · exact hStripped.done_mem
  · exact hStripped.done_enters
  · exact hStripped.children_done
  · intro d hMem
    rw [hCount d hMem]
    exact hStripped.count_eq d hMem
  · intro v hMem hEnters hInner hZero
    rw [hCount v hMem] at hZero
    exact hStripped.ready v hMem hEnters hInner hZero
  · intro d hMem
    rw [hTotal d hMem]
    exact hStripped.total_eq d hMem

/-
  With an empty queue, a node with a parent is done if the
  nodes below it all enter the queue.
-/
theorem mem_done_of_empty
    (hStripped : Stripped f size enters done [] count total)
    (hMem : v ∈ f.nodes)
    (hInner : f.parent v ≠ none)
    (hEnters : ∀ w ∈ subtree f v, enters w) :
    v ∈ done := by
  classical
  by_contra hNew
  let rest : Finset V :=
    (subtree f v).filter
      (fun x => f.parent x ≠ none ∧ x ∉ done)
  have hRest : v ∈ rest :=
    Finset.mem_filter.mpr
      ⟨mem_subtree.mpr ⟨hMem, Up.refl v⟩, hInner, hNew⟩
  rcases Finset.exists_max_image rest f.rank ⟨v, hRest⟩ with
    ⟨x, hX, hMax⟩
  rcases Finset.mem_filter.mp hX with
    ⟨hBelowX, hInnerX, hNewX⟩
  rcases mem_subtree.mp hBelowX with ⟨hNodeX, hUpX⟩
  by_cases hZero : count x = 0
  · rcases hStripped.ready x hNodeX (hEnters x hBelowX)
        hInnerX hZero with hDone | hQueue
    · exact hNewX hDone
    · exact absurd hQueue List.not_mem_nil
  · -- A waiting child of `x` would have a larger rank.
    rw [hStripped.count_eq x hNodeX] at hZero
    have hPos :
        0 < (waitingChildren f done x).card := by
      omega
    rcases Finset.card_pos.mp hPos with ⟨c, hC⟩
    rcases mem_waitingChildren.mp hC with
      ⟨hNodeC, hParentC, hNewC⟩
    have hInnerC : f.parent c ≠ none := by
      rw [hParentC]
      exact Option.some_ne_none x
    have hBelowC : c ∈ subtree f v :=
      mem_subtree.mpr
        ⟨hNodeC, (Up.single hParentC).trans hUpX⟩
    have hLe := hMax c
      (Finset.mem_filter.mpr ⟨hBelowC, hInnerC, hNewC⟩)
    have hLt := f.ranked c x hParentC
    omega

/- What is below a node that is done is done as well. -/
theorem mem_done_of_up
    (hStripped : Stripped f size enters done queue count total)
    (hDone : v ∈ done)
    (hMem : w ∈ f.nodes)
    (hUp : Up f.parent w v) :
    w ∈ done := by
  induction hUp using Relation.ReflTransGen.head_induction_on
    with
  | refl => exact hDone
  | @head c p hParent _ ih =>
      have hMemP : p ∈ f.nodes := f.closed c p hMem hParent
      exact hStripped.children_done c hMem p hParent
        (Or.inl (ih hMemP))

/-
  In the end the total of a node is the sum over its subtree
  if the nodes below it all enter the queue.
-/
theorem total_of_empty
    (hStripped : Stripped f size enters done [] count total)
    (hMem : d ∈ f.nodes)
    (hEnters : ∀ w ∈ subtree f d, w ≠ d → enters w) :
    total d = ∑ w ∈ subtree f d, size w := by
  rw [hStripped.total_eq d hMem, absorbed_eq_subtree]
  intro c hMemC hParent
  apply hStripped.mem_done_of_empty hMemC
  · rw [hParent]
    exact Option.some_ne_none d
  · intro w hMemW
    rcases mem_subtree.mp hMemW with ⟨hNode, hUp⟩
    apply hEnters w
    · exact mem_subtree.mpr
        ⟨hNode, hUp.trans (Up.single hParent)⟩
    · intro hEq
      rw [hEq] at hUp
      have hLe := hUp.rank_le f.ranked
      have hLt := f.ranked c d hParent
      omega

/- For positive sizes it is the sum in no other case. -/
theorem enters_of_total
    (hStripped : Stripped f size enters done [] count total)
    (hMem : d ∈ f.nodes)
    (hPos : ∀ w ∈ f.nodes, 0 < size w)
    (hTotal : total d = ∑ w ∈ subtree f d, size w)
    (hBelow : w ∈ subtree f d)
    (hNe : w ≠ d) :
    enters w := by
  have hSubset : absorbed f done d ⊆ subtree f d := by
    intro x hX
    rcases mem_absorbed.mp hX with
      ⟨hNode, hEq | ⟨c, _, hParent, hUp⟩⟩
    · rw [hEq]
      exact mem_subtree.mpr ⟨hMem, Up.refl d⟩
    · exact mem_subtree.mpr
        ⟨hNode, hUp.trans (Up.single hParent)⟩
  rw [hStripped.total_eq d hMem] at hTotal
  -- A node left out would make the sum smaller.
  have hAbsorbed : w ∈ absorbed f done d := by
    by_contra hNot
    have hLt :=
      Finset.sum_lt_sum_of_subset hSubset hBelow hNot
        (hPos w (mem_subtree.mp hBelow).1)
        (fun x hX _ =>
          (hPos x (mem_subtree.mp hX).1).le)
    rw [hTotal] at hLt
    exact absurd hLt (lt_irrefl _)
  rcases mem_absorbed.mp hAbsorbed with
    ⟨hNode, hEq | ⟨c, hDone, _, hUp⟩⟩
  · exact absurd hEq hNe
  · exact hStripped.done_enters w
      (hStripped.mem_done_of_up hDone hNode hUp)

end Stripped

/- Nothing is done yet, and the leaves wait in the queue. -/
theorem Stripped.init
    {f : Forest V}
    {size count : V → Int}
    {enters : V → Prop}
    {queue : List V}
    (hNodup : queue.Nodup)
    (hCount :
      ∀ d ∈ f.nodes, count d = (waitingChildren f ∅ d).card)
    (hQueue :
      ∀ v ∈ queue, v ∈ f.nodes ∧ enters v ∧ count v = 0)
    (hReady :
      ∀ v ∈ f.nodes, enters v → f.parent v ≠ none →
        count v = 0 → v ∈ queue) :
    Stripped f size enters ∅ queue count size := by
  constructor
  · exact hNodup
  · intro v hMem
    exact ⟨(hQueue v hMem).1, Finset.notMem_empty v⟩
  · exact fun v hMem => (hQueue v hMem).2.1
  · intro v hMem
    exact absurd hMem (Finset.notMem_empty v)
  · intro v hMem
    exact absurd hMem (Finset.notMem_empty v)
  · intro c hMemC d hParent hCases
    rcases hCases with hDone | hMem
    · exact absurd hDone (Finset.notMem_empty d)
    · rcases hQueue d hMem with ⟨hNode, _, hZero⟩
      rw [hCount d hNode] at hZero
      have hChild : c ∈ waitingChildren f ∅ d :=
        mem_waitingChildren.mpr
          ⟨hMemC, hParent, Finset.notMem_empty c⟩
      have hPos := Finset.card_pos.mpr ⟨c, hChild⟩
      omega
  · exact hCount
  · intro v hMem hEnters hInner hZero
    exact Or.inr (hReady v hMem hEnters hInner hZero)
  · intro d hMem
    have hSelf : absorbed f ∅ d = {d} := by
      ext w
      rw [mem_absorbed, Finset.mem_singleton]
      constructor
      · rintro ⟨_, hEq | ⟨c, hNone, _⟩⟩
        · exact hEq
        · exact absurd hNone (Finset.notMem_empty c)
      · intro hEq
        rw [hEq]
        exact ⟨hMem, Or.inl rfl⟩
    rw [hSelf, Finset.sum_singleton]

end LeafAccumulation
