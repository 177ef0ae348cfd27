import Mathlib.Algebra.BigOperators.Group.Finset.Basic
import Mathlib.Data.Fintype.Basic
import Mathlib.Data.List.Basic
import Mathlib.Data.List.Infix
import Mathlib.Tactic.Common

/-
  Traversals driven by a worklist of edges.

  A traversal holds the edges it still has to report.  Each
  report hands one pending edge to a callback, which updates
  the caller's data and answers whether the target should be
  visited.  A target visited for the first time adds all of
  its outgoing edges to the worklist.  The order of reports
  is a parameter: it is given by the list of reported edges.

  Key definitions include:
    * `Worklist.Graph`
    * `Worklist.State`
    * `Worklist.report`
    * `Worklist.replay`
    * `Worklist.Valid`
    * `Worklist.Complete`
    * `Worklist.Reached`

  Main results:
    * `Worklist.replay_invariant`
    * `Worklist.Tracked.report`
    * `Worklist.exists_complete`
    * `Worklist.Marks.marked_iff_reached`
-/

------------------------------------------------------------
-- Traversal States
------------------------------------------------------------

namespace Worklist

/- The answer of a callback to one reported edge. -/
inductive Signal where
  | skip
  | visit
  | stop
deriving DecidableEq, Repr

/- Edges with their targets, and the edges out of a node. -/
structure Graph (N E : Type) where
  target : E → N
  out : N → List E

/-
  The edges still to be reported, the nodes whose outgoing
  edges have been added to them, and the caller's data.
-/
structure State (N E S : Type) where
  pending : List E
  expanded : List N
  data : S

abbrev Callback (E S : Type) :=
  E → S → S × Signal

variable {N E S : Type}
variable [DecidableEq N] [DecidableEq E]

/- Report one pending edge to the callback. -/
def report
    (g : Graph N E)
    (callback : Callback E S)
    (edge : E)
    (state : State N E S) : State N E S :=
  let answer := callback edge state.data
  let rest := state.pending.erase edge
  match answer.2 with
  | .stop =>
      { pending := []
        expanded := state.expanded
        data := answer.1 }
  | .skip =>
      { pending := rest
        expanded := state.expanded
        data := answer.1 }
  | .visit =>
      if g.target edge ∈ state.expanded then
        { pending := rest
          expanded := state.expanded
          data := answer.1 }
      else
        { pending := rest ++ g.out (g.target edge)
          expanded := g.target edge :: state.expanded
          data := answer.1 }

/- Report a list of edges one after another. -/
def replay
    (g : Graph N E)
    (callback : Callback E S) :
    List E → State N E S → State N E S
| [], state => state
| edge :: edges, state =>
    replay g callback edges (report g callback edge state)

/- Every listed edge is pending when its turn comes. -/
def Valid
    (g : Graph N E)
    (callback : Callback E S) :
    List E → State N E S → Prop
| [], _ => True
| edge :: edges, state =>
    edge ∈ state.pending ∧
      Valid g callback edges (report g callback edge state)

instance decidableValid
    (g : Graph N E)
    (callback : Callback E S) :
    (edges : List E) → (state : State N E S) →
      Decidable (Valid g callback edges state)
| [], _ => isTrue trivial
| edge :: edges, state =>
    have := decidableValid g callback edges
      (report g callback edge state)
    inferInstanceAs (Decidable (_ ∧ _))

/- A valid order of reports that leaves nothing pending. -/
def Complete
    (g : Graph N E)
    (callback : Callback E S)
    (edges : List E)
    (state : State N E S) : Prop :=
  Valid g callback edges state ∧
    (replay g callback edges state).pending = []

instance
    (g : Graph N E)
    (callback : Callback E S)
    (edges : List E)
    (state : State N E S) :
    Decidable (Complete g callback edges state) := by
  unfold Complete
  infer_instance

@[simp] theorem report_data
    (g : Graph N E)
    (callback : Callback E S)
    (edge : E)
    (state : State N E S) :
    (report g callback edge state).data =
      (callback edge state.data).1 := by
  unfold report
  cases hSignal : (callback edge state.data).2 with
  | skip => simp [hSignal]
  | visit =>
      by_cases hExpanded :
          g.target edge ∈ state.expanded
      · simp [hSignal, hExpanded]
      · simp [hSignal, hExpanded]
  | stop => simp [hSignal]

/-
  A property of states that every report of a pending edge
  preserves holds along every valid order of reports.
-/
theorem replay_invariant
    {g : Graph N E}
    {callback : Callback E S}
    (Inv : State N E S → Prop)
    (hStep :
      ∀ state edge,
        Inv state → edge ∈ state.pending →
          Inv (report g callback edge state))
    {edges : List E}
    {state : State N E S}
    (hValid : Valid g callback edges state)
    (hInit : Inv state) :
    Inv (replay g callback edges state) := by
  induction edges generalizing state with
  | nil => exact hInit
  | cons edge edges ih =>
      exact ih hValid.2 (hStep state edge hInit hValid.1)

/- The same with the number of reports so far. -/
theorem replay_steps
    {g : Graph N E}
    {callback : Callback E S}
    {edges : List E}
    (Inv : Nat → State N E S → Prop)
    (hStep :
      ∀ n state edge,
        Inv n state → edges[n]? = some edge →
          edge ∈ state.pending →
            Inv (n + 1) (report g callback edge state))
    {state : State N E S}
    (hValid : Valid g callback edges state)
    (hInit : Inv 0 state) :
    Inv edges.length (replay g callback edges state) := by
  induction edges generalizing Inv state with
  | nil => exact hInit
  | cons edge edges ih =>
      exact ih (fun n => Inv (n + 1))
        (fun n state other hInv hAt =>
          hStep (n + 1) state other hInv hAt)
        hValid.2 (hStep 0 state edge hInit rfl hValid.1)

/- The same for properties of the data alone. -/
theorem replay_data_invariant
    {g : Graph N E}
    {callback : Callback E S}
    (Inv : S → Prop)
    (hStep :
      ∀ data edge, Inv data →
        Inv (callback edge data).1)
    {edges : List E}
    {state : State N E S}
    (hInit : Inv state.data) :
    Inv (replay g callback edges state).data := by
  induction edges generalizing state with
  | nil => exact hInit
  | cons edge edges ih =>
      apply ih
      rw [report_data]
      exact hStep state.data edge hInit

/- What is pending next depends on the answer alone. -/
theorem report_congr
    {S' : Type}
    {callback : Callback E S}
    {callback' : Callback E S'}
    {edge : E}
    {data : S}
    {data' : S'}
    (g : Graph N E)
    (pending : List E)
    (expanded : List N)
    (hSignal :
      (callback edge data).2 = (callback' edge data').2) :
    (report g callback edge
        ⟨pending, expanded, data⟩).pending =
      (report g callback' edge
        ⟨pending, expanded, data'⟩).pending ∧
    (report g callback edge
        ⟨pending, expanded, data⟩).expanded =
      (report g callback' edge
        ⟨pending, expanded, data'⟩).expanded := by
  unfold report
  dsimp only
  rw [hSignal]
  cases (callback' edge data').2 with
  | skip => exact ⟨rfl, rfl⟩
  | stop => exact ⟨rfl, rfl⟩
  | visit =>
      by_cases hExpanded : g.target edge ∈ expanded
      · simp only [if_pos hExpanded, and_self]
      · simp only [if_neg hExpanded, and_self]

------------------------------------------------------------
-- Settled Edges
------------------------------------------------------------

/-
  What a report does to the worklist when the callback does
  not stop the traversal.
-/
theorem report_cases
    {g : Graph N E}
    {callback : Callback E S}
    {edge : E}
    {state : State N E S}
    (hStop : (callback edge state.data).2 ≠ .stop) :
    (((callback edge state.data).2 = .skip ∨
          g.target edge ∈ state.expanded) ∧
        (report g callback edge state).pending =
          state.pending.erase edge ∧
        (report g callback edge state).expanded =
          state.expanded) ∨
      ((callback edge state.data).2 = .visit ∧
        g.target edge ∉ state.expanded ∧
        (report g callback edge state).pending =
          state.pending.erase edge ++
            g.out (g.target edge) ∧
        (report g callback edge state).expanded =
          g.target edge :: state.expanded) := by
  unfold report
  cases hSignal : (callback edge state.data).2 with
  | skip => simp [hSignal]
  | stop => exact absurd hSignal hStop
  | visit =>
      by_cases hExpanded :
          g.target edge ∈ state.expanded
      · simp [hSignal, hExpanded]
      · simp [hSignal, hExpanded]

/- Other pending edges stay pending. -/
theorem mem_pending_report_of_ne
    {g : Graph N E}
    {callback : Callback E S}
    {edge other : E}
    {state : State N E S}
    (hStop : (callback edge state.data).2 ≠ .stop)
    (hMem : other ∈ state.pending)
    (hNe : other ≠ edge) :
    other ∈ (report g callback edge state).pending := by
  have hErase : other ∈ state.pending.erase edge :=
    (List.mem_erase_of_ne hNe).mpr hMem
  rcases report_cases (g := g) hStop with
    ⟨_, hRest, _⟩ | ⟨_, _, hRest, _⟩
  · rw [hRest]
    exact hErase
  · rw [hRest]
    exact List.mem_append_left _ hErase

theorem report_of_skip
    {g : Graph N E}
    {callback : Callback E S}
    {edge : E}
    {state : State N E S}
    (hSkip : (callback edge state.data).2 = .skip) :
    report g callback edge state =
      ⟨state.pending.erase edge, state.expanded,
        (callback edge state.data).1⟩ := by
  simp only [report, hSkip]

/- The edges out of a newly visited target are pending. -/
theorem mem_pending_report_of_out
    {g : Graph N E}
    {callback : Callback E S}
    {edge other : E}
    {state : State N E S}
    (hVisit : (callback edge state.data).2 = .visit)
    (hNew : g.target edge ∉ state.expanded)
    (hMem : other ∈ g.out (g.target edge)) :
    other ∈ (report g callback edge state).pending := by
  simp only [report, hVisit, if_neg hNew]
  exact List.mem_append_right _ hMem

/- Pending edges were so before, or lead out of the target. -/
theorem pending_of_mem_report
    {g : Graph N E}
    {callback : Callback E S}
    {edge other : E}
    {state : State N E S}
    (hMem :
      other ∈ (report g callback edge state).pending) :
    other ∈ state.pending ∨
      other ∈ g.out (g.target edge) := by
  unfold report at hMem
  dsimp only at hMem
  split at hMem
  · exact absurd hMem List.not_mem_nil
  · exact Or.inl (List.mem_of_mem_erase hMem)
  · split at hMem
    · exact Or.inl (List.mem_of_mem_erase hMem)
    · exact (List.mem_append.mp hMem).imp_left
        List.mem_of_mem_erase

/- A report expands at most its target. -/
theorem mem_expanded_report
    {g : Graph N E}
    {callback : Callback E S}
    {edge : E}
    {state : State N E S}
    {node : N} :
    node ∈ (report g callback edge state).expanded ↔
      node ∈ state.expanded ∨
        ((callback edge state.data).2 = .visit ∧
          node = g.target edge) := by
  unfold report
  cases hSignal : (callback edge state.data).2 with
  | skip => simp [hSignal]
  | stop => simp [hSignal]
  | visit =>
      by_cases hExpanded :
          g.target edge ∈ state.expanded
      · simp [hSignal, hExpanded]
        intro hEq
        rw [hEq]
        exact hExpanded
      · simp [hSignal, hExpanded]
        exact or_comm

/-
  `Tracked init state` says that every edge the traversal
  has met (an initial one, or one out of an expanded node)
  is either pending or satisfies `Done`, and that nothing
  else is pending.
-/
structure Tracked
    (g : Graph N E)
    (init : List E)
    (Done : E → S → Prop)
    (state : State N E S) : Prop where
  init_settled :
    ∀ edge ∈ init,
      edge ∈ state.pending ∨ Done edge state.data
  out_settled :
    ∀ node ∈ state.expanded, ∀ edge ∈ g.out node,
      edge ∈ state.pending ∨ Done edge state.data
  pending_known :
    ∀ edge ∈ state.pending,
      edge ∈ init ∨
        ∃ node ∈ state.expanded, edge ∈ g.out node

/-
  Reporting an edge keeps every met edge pending or done,
  if the report makes its own edge done and keeps done
  edges done.
-/
theorem Tracked.report
    {g : Graph N E}
    {callback : Callback E S}
    {init : List E}
    {Done : E → S → Prop}
    {state : State N E S}
    {edge : E}
    (hTracked : Tracked g init Done state)
    (hPending : edge ∈ state.pending)
    (hStop : (callback edge state.data).2 ≠ .stop)
    (hDone : Done edge (callback edge state.data).1)
    (hKeep :
      ∀ other, Done other state.data →
        Done other (callback edge state.data).1) :
    Tracked g init Done
      (Worklist.report g callback edge state) := by
  have hMove :
      ∀ other,
        other ∈ state.pending ∨ Done other state.data →
          other ∈ state.pending.erase edge ∨
            Done other (callback edge state.data).1 := by
    intro other hOther
    by_cases hEq : other = edge
    · subst hEq
      exact Or.inr hDone
    · rcases hOther with hOther | hOther
      · exact Or.inl ((List.mem_erase_of_ne hEq).mpr hOther)
      · exact Or.inr (hKeep other hOther)
  rcases report_cases (g := g) hStop with
    ⟨_, hRest, hExpanded⟩ |
      ⟨_, _, hRest, hExpanded⟩
  · constructor
    · intro other hOther
      rw [hRest, report_data]
      exact hMove other
        (hTracked.init_settled other hOther)
    · intro node hNode other hOther
      rw [hRest, report_data]
      rw [hExpanded] at hNode
      exact hMove other
        (hTracked.out_settled node hNode other hOther)
    · intro other hOther
      rw [hRest] at hOther
      rw [hExpanded]
      exact hTracked.pending_known other
        (List.mem_of_mem_erase hOther)
  · constructor
    · intro other hOther
      rw [hRest, report_data, List.mem_append]
      rcases hMove other
          (hTracked.init_settled other hOther) with h | h
      · exact Or.inl (Or.inl h)
      · exact Or.inr h
    · intro node hNode other hOther
      rw [hRest, report_data, List.mem_append]
      rw [hExpanded] at hNode
      rcases List.mem_cons.mp hNode with hNew | hOld
      · subst hNew
        exact Or.inl (Or.inr hOther)
      · rcases hMove other
          (hTracked.out_settled node hOld other hOther)
          with h | h
        · exact Or.inl (Or.inl h)
        · exact Or.inr h
    · intro other hOther
      rw [hRest, List.mem_append] at hOther
      rw [hExpanded]
      rcases hOther with hOther | hOther
      · rcases hTracked.pending_known other
          (List.mem_of_mem_erase hOther) with h | h
        · exact Or.inl h
        · rcases h with ⟨node, hNode, hOut⟩
          exact Or.inr
            ⟨node, List.mem_cons_of_mem _ hNode, hOut⟩
      · exact Or.inr
          ⟨g.target edge, List.mem_cons_self, hOther⟩

------------------------------------------------------------
-- Existence of Complete Traversals
------------------------------------------------------------

/-
  The number of reports that are left at most: the pending
  edges and the edges out of nodes not yet expanded.
-/
def remaining
    [Fintype N]
    (g : Graph N E)
    (state : State N E S) : Nat :=
  state.pending.length +
    ∑ node ∈ Finset.univ.filter (· ∉ state.expanded),
      (g.out node).length

theorem remaining_report
    [Fintype N]
    {g : Graph N E}
    {callback : Callback E S}
    {edge : E}
    {state : State N E S}
    (hStop : (callback edge state.data).2 ≠ .stop)
    (hPending : edge ∈ state.pending) :
    remaining g (report g callback edge state) + 1 =
      remaining g state := by
  have hLength :
      (state.pending.erase edge).length + 1 =
        state.pending.length := by
    have := List.length_erase_of_mem hPending
    have := List.length_pos_of_mem hPending
    omega
  unfold remaining
  rcases report_cases (g := g) hStop with
    ⟨_, hRest, hExpanded⟩ |
      ⟨_, hNew, hRest, hExpanded⟩
  · rw [hRest, hExpanded]
    omega
  · rw [hRest, hExpanded, List.length_append]
    have hFilter :
        Finset.univ.filter (· ∉ state.expanded) =
          insert (g.target edge)
            (Finset.univ.filter
              (· ∉ g.target edge :: state.expanded)) := by
      ext node
      by_cases hEq : node = g.target edge
      · simp [hEq, hNew]
      · simp [hEq]
    rw [hFilter, Finset.sum_insert (by simp)]
    omega

/-
  On a finite graph a callback that does not stop, as long
  as an invariant holds, has a complete traversal, which
  reports the pending edges first.
-/
theorem exists_complete
    [Fintype N]
    (g : Graph N E)
    {callback : Callback E S}
    (Inv : State N E S → Prop)
    (hStep :
      ∀ state edge,
        Inv state → edge ∈ state.pending →
          Inv (report g callback edge state))
    (hStop :
      ∀ state edge,
        Inv state → edge ∈ state.pending →
          (callback edge state.data).2 ≠ .stop)
    (state : State N E S)
    (hInit : Inv state) :
    ∃ rest,
      Complete g callback (state.pending ++ rest) state ∧
        ∀ edge ∈ rest, ∃ node, edge ∈ g.out node := by
  induction hSize : remaining g state
    generalizing state with
  | zero =>
      have hEmpty : state.pending = [] := by
        apply List.eq_nil_of_length_eq_zero
        unfold remaining at hSize
        omega
      refine ⟨[], ?_, by simp⟩
      rw [hEmpty]
      exact ⟨trivial, hEmpty⟩
  | succ size ih =>
      cases hList : state.pending with
      | nil =>
          refine ⟨[], ?_, by simp⟩
          exact ⟨trivial, hList⟩
      | cons edge pending =>
          have hPending : edge ∈ state.pending := by
            simp [hList]
          have hContinues := hStop state edge hInit hPending
          have hNext :=
            remaining_report (g := g) hContinues hPending
          rcases ih (report g callback edge state)
              (hStep state edge hInit hPending)
              (by omega) with
            ⟨rest, hComplete, hRest⟩
          rcases report_cases (g := g) hContinues with
            ⟨_, hErase, _⟩ | ⟨_, _, hErase, _⟩
          · rw [hErase, hList, List.erase_cons_head]
              at hComplete
            exact ⟨rest, ⟨⟨hPending, hComplete.1⟩,
              hComplete.2⟩, hRest⟩
          · rw [hErase, hList, List.erase_cons_head,
              List.append_assoc] at hComplete
            refine ⟨g.out (g.target edge) ++ rest,
              ⟨⟨hPending, hComplete.1⟩, hComplete.2⟩, ?_⟩
            intro other hOther
            rcases List.mem_append.mp hOther with h | h
            · exact ⟨_, h⟩
            · exact hRest other h

------------------------------------------------------------
-- Traversals That Stop Early
------------------------------------------------------------

theorem replay_append
    (g : Graph N E)
    (callback : Callback E S)
    (edges rest : List E)
    (state : State N E S) :
    replay g callback (edges ++ rest) state =
      replay g callback rest
        (replay g callback edges state) := by
  induction edges generalizing state with
  | nil => rfl
  | cons edge edges ih => exact ih _

theorem valid_append_iff
    (g : Graph N E)
    (callback : Callback E S)
    (edges rest : List E)
    (state : State N E S) :
    Valid g callback (edges ++ rest) state ↔
      Valid g callback edges state ∧
        Valid g callback rest
          (replay g callback edges state) := by
  induction edges generalizing state with
  | nil => exact ⟨fun hRest => ⟨trivial, hRest⟩, And.right⟩
  | cons edge edges ih =>
      change
        (edge ∈ state.pending ∧
            Valid g callback (edges ++ rest) _) ↔ _
      rw [ih, ← and_assoc]
      rfl

/-
  The second callback answers like the first one until it
  stops, and `Stopped` then holds of its data.
-/
structure Follows
    {S' : Type}
    (callback : Callback E S)
    (callback' : Callback E S')
    (Related : S → S' → Prop)
    (Stopped : S' → Prop) : Prop where
  related :
    ∀ edge data data', Related data data' →
      Related (callback edge data).1
        (callback' edge data').1
  signal :
    ∀ edge data data', Related data data' →
      (callback' edge data').2 ≠ .stop →
        (callback' edge data').2 = (callback edge data).2
  stopped :
    ∀ edge data data', Related data data' →
      (callback' edge data').2 = .stop →
        Stopped (callback' edge data').1

/- A traversal that stops early sees part of the other. -/
theorem Follows.replay
    {S' : Type}
    {g : Graph N E}
    {callback : Callback E S}
    {callback' : Callback E S'}
    {Related : S → S' → Prop}
    {Stopped : S' → Prop}
    (hFollows :
      Follows callback callback' Related Stopped)
    {edges : List E}
    {state : State N E S}
    {state' : State N E S'}
    (hPending : state'.pending = state.pending)
    (hExpanded : state'.expanded = state.expanded)
    (hRelated : Related state.data state'.data)
    (hValid : Valid g callback' edges state') :
    Related (Worklist.replay g callback edges state).data
        (Worklist.replay g callback' edges state').data ∧
      ((Worklist.replay g callback' edges state').pending =
          (Worklist.replay g callback edges state).pending ∨
        Stopped
          (Worklist.replay g callback' edges
            state').data) := by
  induction edges generalizing state state' with
  | nil => exact ⟨hRelated, Or.inl hPending⟩
  | cons edge edges ih =>
      have hNext :=
        hFollows.related edge state.data state'.data
          hRelated
      by_cases hStop :
          (callback' edge state'.data).2 = .stop
      · have hNone :
            (report g callback' edge state').pending =
              [] := by
          simp [report, hStop]
        cases edges with
        | nil =>
            refine ⟨?_, Or.inr ?_⟩
            · change
                Related (report g callback edge state).data
                  (report g callback' edge state').data
              rw [report_data, report_data]
              exact hNext
            · change
                Stopped (report g callback' edge state').data
              rw [report_data]
              exact hFollows.stopped edge state.data
                state'.data hRelated hStop
        | cons other edges =>
            have hMem := hValid.2.1
            rw [hNone] at hMem
            exact absurd hMem List.not_mem_nil
      · have hSignal :=
          hFollows.signal edge state.data state'.data
            hRelated hStop
        apply ih ?_ ?_ ?_ hValid.2
        · simp only [report, hSignal, hPending, hExpanded]
          split
          · rfl
          · rfl
          · split
            · rfl
            · rfl
        · simp only [report, hSignal, hExpanded]
          split
          · rfl
          · rfl
          · split
            · rfl
            · rfl
        · rw [report_data, report_data]
          exact hNext

------------------------------------------------------------
-- Marking Traversals
------------------------------------------------------------

/-
  The nodes a traversal can reach from the initial edges
  along edges that satisfy `Enter`.
-/
inductive Reached
    (g : Graph N E)
    (Enter : E → Prop)
    (init : List E) : N → Prop
  | start {edge : E} :
      edge ∈ init → Enter edge →
        Reached g Enter init (g.target edge)
  | step {node : N} {edge : E} :
      Reached g Enter init node →
        edge ∈ g.out node → Enter edge →
          Reached g Enter init (g.target edge)

/-
  A callback marks exactly the targets of the edges that
  satisfy `Enter`, and visits a target it newly marks.
  `Inv` is what it may assume of the data.
-/
structure Marks
    (g : Graph N E)
    (callback : Callback E S)
    (Inv : S → Prop)
    (Enter : E → Prop)
    (marked : S → N → Prop) : Prop where
  inv :
    ∀ edge data, Inv data → Inv (callback edge data).1
  enter :
    ∀ edge data, Inv data → Enter edge → ∀ node,
      marked (callback edge data).1 node ↔
        marked data node ∨ node = g.target edge
  visit :
    ∀ edge data, Inv data → Enter edge →
      ¬ marked data (g.target edge) →
        (callback edge data).2 = .visit
  frame :
    ∀ edge data, Inv data → ¬ Enter edge → ∀ node,
      marked (callback edge data).1 node ↔
        marked data node
  skip :
    ∀ edge data, Inv data → ¬ Enter edge →
      (callback edge data).2 = .skip
  continues :
    ∀ edge data, Inv data →
      (callback edge data).2 ≠ .stop

variable {g : Graph N E}
variable {callback : Callback E S}
variable {Inv : S → Prop}
variable {Enter : E → Prop}
variable {marked : S → N → Prop}

/- Marks are never removed. -/
omit [DecidableEq N] [DecidableEq E] in
theorem Marks.keeps
    (hMarks : Marks g callback Inv Enter marked)
    {edge : E}
    {data : S}
    {node : N}
    (hData : Inv data)
    (hMarked : marked data node) :
    marked (callback edge data).1 node := by
  by_cases hEnter : Enter edge
  · exact (hMarks.enter edge data hData hEnter node).mpr
      (Or.inl hMarked)
  · exact (hMarks.frame edge data hData hEnter node).mpr
      hMarked

/-
  The invariant of a marking traversal: marked nodes are
  reached, marked nodes are expanded, and expanded nodes are
  marked unless the traversal started with them.
-/
structure MarkState
    (g : Graph N E)
    (Inv : S → Prop)
    (Enter : E → Prop)
    (marked : S → N → Prop)
    (init : List E)
    (start : List N)
    (state : State N E S) : Prop where
  inv : Inv state.data
  reached :
    ∀ node, marked state.data node →
      Reached g Enter init node
  expanded_of_marked :
    ∀ node, marked state.data node →
      node ∈ state.expanded
  marked_of_expanded :
    ∀ node ∈ state.expanded,
      node ∈ start ∨ marked state.data node
  tracked :
    Tracked g init
      (fun edge data =>
        Enter edge → marked data (g.target edge)) state

/- A pending edge that may enter its target reaches it. -/
omit [DecidableEq N] [DecidableEq E] in
theorem MarkState.reached_target
    {init : List E}
    {start : List N}
    {state : State N E S}
    (hStart :
      ∀ node ∈ start, ∀ edge ∈ g.out node, edge ∈ init)
    (hState :
      MarkState g Inv Enter marked init start state)
    {edge : E}
    (hPending : edge ∈ state.pending)
    (hEnter : Enter edge) :
    Reached g Enter init (g.target edge) := by
  rcases hState.tracked.pending_known edge hPending with
    hInit | ⟨node, hNode, hOut⟩
  · exact Reached.start hInit hEnter
  · rcases hState.marked_of_expanded node hNode with h | h
    · exact Reached.start
        (hStart node h edge hOut) hEnter
    · exact Reached.step (hState.reached node h)
        hOut hEnter

theorem MarkState.report
    (hMarks : Marks g callback Inv Enter marked)
    {init : List E}
    {start : List N}
    {state : State N E S}
    (hStart :
      ∀ node ∈ start, ∀ edge ∈ g.out node, edge ∈ init)
    (hState :
      MarkState g Inv Enter marked init start state)
    {edge : E}
    (hPending : edge ∈ state.pending) :
    MarkState g Inv Enter marked init start
      (Worklist.report g callback edge state) := by
  have hInv := hState.inv
  have hTracked :
      Tracked g init
        (fun edge data =>
          Enter edge → marked data (g.target edge))
        (Worklist.report g callback edge state) := by
    apply hState.tracked.report hPending
      (hMarks.continues edge state.data hInv)
    · intro hEnter
      exact
        (hMarks.enter edge state.data hInv hEnter _).mpr
          (Or.inr rfl)
    · intro other hOther hEnter
      exact hMarks.keeps hInv (hOther hEnter)
  by_cases hEnter : Enter edge
  · have hMark :=
      hMarks.enter edge state.data hInv hEnter
    refine ⟨?_, ?_, ?_, ?_, hTracked⟩
    · rw [report_data]
      exact hMarks.inv edge state.data hInv
    · intro node hNode
      rw [report_data, hMark] at hNode
      rcases hNode with hNode | hNode
      · exact hState.reached node hNode
      · subst hNode
        exact hState.reached_target hStart hPending hEnter
    · intro node hNode
      rw [report_data, hMark] at hNode
      rcases report_cases (g := g)
          (hMarks.continues edge state.data hInv) with
        ⟨hSkip, _, hExpanded⟩ |
          ⟨_, _, _, hExpanded⟩
      · rw [hExpanded]
        rcases hNode with hNode | hNode
        · exact hState.expanded_of_marked node hNode
        · subst hNode
          by_cases hOld :
              marked state.data (g.target edge)
          · exact hState.expanded_of_marked _ hOld
          · rcases hSkip with hSkip | hSkip
            · rw [hMarks.visit edge state.data hInv
                hEnter hOld] at hSkip
              cases hSkip
            · exact hSkip
      · rw [hExpanded]
        rcases hNode with hNode | hNode
        · exact List.mem_cons_of_mem _
            (hState.expanded_of_marked node hNode)
        · subst hNode
          exact List.mem_cons_self
    · intro node hNode
      rw [report_data, hMark]
      rcases report_cases (g := g)
          (hMarks.continues edge state.data hInv) with
        ⟨_, _, hExpanded⟩ | ⟨_, _, _, hExpanded⟩
      · rw [hExpanded] at hNode
        rcases hState.marked_of_expanded node hNode
          with h | h
        · exact Or.inl h
        · exact Or.inr (Or.inl h)
      · rw [hExpanded] at hNode
        rcases List.mem_cons.mp hNode with hNew | hOld
        · exact Or.inr (Or.inr hNew)
        · rcases hState.marked_of_expanded node hOld
            with h | h
          · exact Or.inl h
          · exact Or.inr (Or.inl h)
  · have hMark :=
      hMarks.frame edge state.data hInv hEnter
    have hSkip := hMarks.skip edge state.data hInv hEnter
    have hExpanded :
        (Worklist.report g callback edge state).expanded =
          state.expanded := by
      simp [Worklist.report, hSkip]
    refine ⟨?_, ?_, ?_, ?_, hTracked⟩
    · rw [report_data]
      exact hMarks.inv edge state.data hInv
    · intro node hNode
      rw [report_data, hMark] at hNode
      exact hState.reached node hNode
    · intro node hNode
      rw [report_data, hMark] at hNode
      rw [hExpanded]
      exact hState.expanded_of_marked node hNode
    · intro node hNode
      rw [hExpanded] at hNode
      rw [report_data, hMark]
      exact hState.marked_of_expanded node hNode

/-
  A complete marking traversal marks exactly the nodes that
  are reached along entering edges, in whatever order the
  edges are reported.
-/
theorem Marks.marked_iff_reached
    (hMarks : Marks g callback Inv Enter marked)
    {init : List E}
    (start : List N)
    {data : S}
    {edges : List E}
    (hStart :
      ∀ node ∈ start, ∀ edge ∈ g.out node, edge ∈ init)
    (hData : Inv data)
    (hUnmarked : ∀ node, ¬ marked data node)
    (hComplete :
      Complete g callback edges ⟨init, start, data⟩)
    (node : N) :
    marked
        (replay g callback edges
          ⟨init, start, data⟩).data node ↔
      Reached g Enter init node := by
  have hFinal :
      MarkState g Inv Enter marked init start
        (replay g callback edges
          ⟨init, start, data⟩) := by
    apply replay_invariant
      (MarkState g Inv Enter marked init start)
      ?_ hComplete.1
    · refine ⟨hData, ?_, ?_, ?_, ?_, ?_, ?_⟩
      · exact fun node h => absurd h (hUnmarked node)
      · exact fun node h => absurd h (hUnmarked node)
      · exact fun node h => Or.inl h
      · exact fun edge hEdge => Or.inl hEdge
      · exact fun node hNode edge hEdge =>
          Or.inl (hStart node hNode edge hEdge)
      · exact fun edge hEdge => Or.inl hEdge
    · intro state edge hState hPending
      exact hState.report hMarks hStart hPending
  constructor
  · exact hFinal.reached node
  · intro hReached
    induction hReached with
    | @start edge hEdge hEnter =>
        rcases hFinal.tracked.init_settled edge hEdge
          with h | h
        · simp [hComplete.2] at h
        · exact h hEnter
    | @step node edge _ hOut hEnter ih =>
        rcases hFinal.tracked.out_settled node
            (hFinal.expanded_of_marked node ih) edge hOut
          with h | h
        · simp [hComplete.2] at h
        · exact h hEnter

end Worklist
