import MemoryAgent.Graph.Worklist

/-
  A callback that may end the traversal before it calls
  another one.  What it does is what the other one does, up
  to the edge at which it ends the traversal.

  Key definitions include:
    * `Worklist.Wraps`

  Main results:
    * `Worklist.Wraps.replay`
    * `Worklist.Wraps.cut`
-/

------------------------------------------------------------
-- Wrapped Callbacks
------------------------------------------------------------

namespace Worklist

section Wrapped

variable {N E S S' : Type}
variable [DecidableEq N] [DecidableEq E]

/-
  `outer` ends the traversal when its data say so, and does
  what `inner` does otherwise.
-/
structure Wraps
    (inner : Callback E S)
    (outer : Callback E S')
    (view : S' → S)
    (halts : S' → Bool) : Prop where
  halt :
    ∀ edge data, halts data = true →
      (outer edge data).2 = .stop ∧
        view (outer edge data).1 = view data
  pass :
    ∀ edge data, halts data = false →
      (outer edge data).2 = (inner edge (view data)).2 ∧
        view (outer edge data).1 =
          (inner edge (view data)).1

def State.mapData
    (view : S' → S)
    (state : State N E S') : State N E S :=
  ⟨state.pending, state.expanded, view state.data⟩

/- No edge of the list but those from `n` on ends it. -/
def GoesOn
    (g : Graph N E)
    (outer : Callback E S')
    (halts : S' → Bool)
    (edges : List E)
    (state : State N E S')
    (n : Nat) : Prop :=
  ∀ k < n,
    halts (replay g outer (edges.take k) state).data = false

variable {g : Graph N E}
variable {inner : Callback E S}
variable {outer : Callback E S'}
variable {view : S' → S}
variable {halts : S' → Bool}
variable {edges : List E}
variable {state : State N E S'}

theorem Wraps.report
    (hWraps : Wraps inner outer view halts)
    {edge : E}
    (hGoes : halts state.data = false) :
    (Worklist.report g outer edge state).mapData view =
      Worklist.report g inner edge (state.mapData view) := by
  rcases hWraps.pass edge state.data hGoes with
    ⟨hSignal, hView⟩
  unfold Worklist.report State.mapData
  dsimp only
  rw [hSignal, ← hView]
  cases (inner edge (view state.data)).2 with
  | stop => rfl
  | skip => rfl
  | visit =>
      by_cases hOld : g.target edge ∈ state.expanded
      · simp only [if_pos hOld]
      · simp only [if_neg hOld]

theorem GoesOn.head
    {edge : E}
    (hGoes :
      GoesOn g outer halts (edge :: edges) state
        (edge :: edges).length) :
    halts state.data = false ∧
      GoesOn g outer halts edges
        (Worklist.report g outer edge state)
        edges.length := by
  refine ⟨hGoes 0 (Nat.zero_lt_succ _), ?_⟩
  intro k hK
  exact hGoes (k + 1) (Nat.succ_lt_succ hK)

theorem Wraps.replay
    (hWraps : Wraps inner outer view halts)
    (hGoes : GoesOn g outer halts edges state edges.length) :
    (Worklist.replay g outer edges state).mapData view =
      Worklist.replay g inner edges (state.mapData view) := by
  induction edges generalizing state with
  | nil => rfl
  | cons edge edges ih =>
      rcases hGoes.head with ⟨hFirst, hRest⟩
      unfold Worklist.replay
      rw [← hWraps.report hFirst]
      exact ih hRest

theorem Wraps.valid_iff
    (hWraps : Wraps inner outer view halts)
    (hGoes : GoesOn g outer halts edges state edges.length) :
    Valid g outer edges state ↔
      Valid g inner edges (state.mapData view) := by
  induction edges generalizing state with
  | nil => exact Iff.rfl
  | cons edge edges ih =>
      rcases hGoes.head with ⟨hFirst, hRest⟩
      unfold Valid
      rw [← hWraps.report hFirst, ih hRest]
      exact Iff.rfl

/- Nothing is reported after the end of the traversal. -/
theorem Wraps.last_of_halts
    (hWraps : Wraps inner outer view halts)
    {k : Nat}
    (hK : k < edges.length)
    (hHalts :
      halts (Worklist.replay g outer (edges.take k)
        state).data = true)
    (hValid : Valid g outer edges state) :
    edges.length = k + 1 := by
  rw [← List.take_append_drop k edges] at hValid
  have hDrop := ((valid_append_iff g outer _ _ _).mp hValid).2
  rw [List.drop_eq_getElem_cons hK] at hDrop
  have hRest := hDrop.2
  have hNone :
      (Worklist.report g outer edges[k]
        (Worklist.replay g outer (edges.take k)
          state)).pending = [] := by
    unfold Worklist.report
    dsimp only
    rw [(hWraps.halt edges[k] _ hHalts).1]
  cases hTail : edges.drop (k + 1) with
  | nil =>
      have hLe := List.drop_eq_nil_iff.mp hTail
      exact Nat.le_antisymm hLe hK
  | cons edge rest =>
      rw [hTail] at hRest
      have hMem := hRest.1
      rw [hNone] at hMem
      exact absurd hMem List.not_mem_nil

/-
  A traversal with `outer` is one with `inner`, or it ends
  at its last edge and is one with `inner` up to this edge.
-/
theorem Wraps.cut
    (hWraps : Wraps inner outer view halts)
    (hValid : Valid g outer edges state) :
    ∃ before,
      GoesOn g outer halts edges state before.length ∧
        Valid g inner before (state.mapData view) ∧
        view (Worklist.replay g outer edges state).data =
          (Worklist.replay g inner before
            (state.mapData view)).data ∧
        (before = edges ∨
          ∃ edge, edges = before ++ [edge] ∧
            halts (Worklist.replay g outer before
              state).data = true) := by
  by_cases hSome :
      ∃ k < edges.length,
        halts (Worklist.replay g outer (edges.take k)
          state).data = true
  · rcases hSome with ⟨k, hK, hHalts⟩
    have hLength := hWraps.last_of_halts hK hHalts hValid
    have hTake : (edges.take k).length = k := by
      rw [List.length_take]
      omega
    have hSplit : edges = edges.take k ++ [edges[k]] := by
      rw [← List.take_succ_eq_append_getElem hK,
        List.take_of_length_le (by omega)]
    have hGoes : GoesOn g outer halts edges state k := by
      intro j hJ
      by_contra hHaltsJ
      rw [Bool.not_eq_false] at hHaltsJ
      have hEarly :=
        hWraps.last_of_halts (hJ.trans hK) hHaltsJ hValid
      omega
    have hGoesTake :
        GoesOn g outer halts (edges.take k) state
          (edges.take k).length := by
      intro j hJ
      rw [hTake] at hJ
      rw [List.take_take, Nat.min_eq_left hJ.le]
      exact hGoes j hJ
    have hValidTake : Valid g outer (edges.take k) state := by
      rw [hSplit] at hValid
      exact ((valid_append_iff g outer _ _ _).mp hValid).1
    refine ⟨edges.take k, ?_, ?_, ?_, Or.inr ?_⟩
    · rw [hTake]
      exact hGoes
    · exact (hWraps.valid_iff hGoesTake).mp hValidTake
    · have hReplay :
          Worklist.replay g outer edges state =
            Worklist.report g outer edges[k]
              (Worklist.replay g outer (edges.take k)
                state) := by
        conv_lhs => rw [hSplit, replay_append]
        rfl
      rw [← hWraps.replay hGoesTake, hReplay, report_data,
        (hWraps.halt _ _ hHalts).2]
      rfl
    · exact ⟨edges[k], hSplit, hHalts⟩
  · have hGoes :
        GoesOn g outer halts edges state edges.length := by
      intro k hK
      by_contra hHalts
      rw [Bool.not_eq_false] at hHalts
      exact hSome ⟨k, hK, hHalts⟩
    refine ⟨edges, hGoes, (hWraps.valid_iff hGoes).mp hValid,
      ?_, Or.inl rfl⟩
    rw [← hWraps.replay hGoes]
    rfl

end Wrapped

end Worklist
