import MemoryAgent.Actions.Calls

/-
  Executions of programs whose calls change a state.  What a
  call does is a relation, since a call may leave choices
  open, and a sweep takes time, in which it may be cut short.

  Key definitions include:
    * `Calls.Meaning`
    * `Calls.Executes`
    * `Calls.Quiet`

  Main results:
    * `Calls.executes_bind_iff`
    * `Calls.quiet_bind_iff`
    * `Calls.Executes.quiet`
-/

------------------------------------------------------------
-- Executions
------------------------------------------------------------

namespace MemoryAgent

namespace Calls

variable {C S α β : Type}

/-
  What calls and sweeps may do to a state.  A sweep goes on
  from one time to another, and tells whether it ran to
  completion.
-/
structure Meaning (C S : Type) where
  call : C → S → Error → S → Prop
  sweep : C → Nat → S → Error → Bool → Nat → S → Prop
  sweep_le :
    ∀ {c n s err done n' s'},
      sweep c n s err done n' s' → n ≤ n'

/-
  The stop condition is read at the times of the questions.
  An execution is one that is defined throughout.
-/
def Executes
    (m : Meaning C S)
    (stops : Nat → Bool) :
    Prog C α → Nat → S → α → Nat → S → Prop
| .ret a, n, s, b, k, t => b = a ∧ k = n ∧ t = s
| .undefined _, _, _, _, _, _ => False
| .shouldStop next, n, s, b, k, t =>
    Executes m stops (next (stops n)) (n + 1) s b k t
| .call c next, n, s, b, k, t =>
    ∃ err s', m.call c s err s' ∧
      Executes m stops (next err) n s' b k t
| .sweep c next, n, s, b, k, t =>
    ∃ err done n' s', m.sweep c n s err done n' s' ∧
      Executes m stops (next err done) n' s' b k t

/-
  Executions in which no question is answered with a stop
  and every sweep is a whole one.
-/
def Quiet
    (call whole : C → S → Error → S → Prop) :
    Prog C α → S → α → S → Prop
| .ret a, s, b, t => b = a ∧ t = s
| .undefined _, _, _, _ => False
| .shouldStop next, s, b, t =>
    Quiet call whole (next false) s b t
| .call c next, s, b, t =>
    ∃ err s', call c s err s' ∧
      Quiet call whole (next err) s' b t
| .sweep c next, s, b, t =>
    ∃ err s', whole c s err s' ∧
      Quiet call whole (next err (isOk err)) s' b t

------------------------------------------------------------
-- Sequences
------------------------------------------------------------

section Bind

variable {m : Meaning C S}
variable {stops : Nat → Bool}
variable {call whole : C → S → Error → S → Prop}

theorem executes_bind_iff
    {p : Prog C α}
    {f : α → Prog C β}
    {n k : Nat}
    {s u : S}
    {b : β} :
    Executes m stops (p >>= f) n s b k u ↔
      ∃ a j t, Executes m stops p n s a j t ∧
        Executes m stops (f a) j t b k u := by
  change Executes m stops (p.bind f) n s b k u ↔ _
  induction p generalizing n s with
  | ret a =>
      constructor
      · intro hRest
        exact ⟨a, n, s, ⟨rfl, rfl, rfl⟩, hRest⟩
      · rintro ⟨_, _, _, ⟨rfl, rfl, rfl⟩, hRest⟩
        exact hRest
  | undefined next ih =>
      constructor
      · exact False.elim
      · rintro ⟨_, _, _, hFirst, _⟩
        exact hFirst
  | shouldStop next ih => exact ih (stops n)
  | call c next ih =>
      constructor
      · rintro ⟨err, s', hCall, hRest⟩
        rcases (ih err).mp hRest with
          ⟨a, j, t, hFirst, hSecond⟩
        exact ⟨a, j, t, ⟨err, s', hCall, hFirst⟩, hSecond⟩
      · rintro ⟨a, j, t, ⟨err, s', hCall, hFirst⟩, hSecond⟩
        exact ⟨err, s', hCall,
          (ih err).mpr ⟨a, j, t, hFirst, hSecond⟩⟩
  | sweep c next ih =>
      constructor
      · rintro ⟨err, done, n', s', hSweep, hRest⟩
        rcases (ih err done).mp hRest with
          ⟨a, j, t, hFirst, hSecond⟩
        exact ⟨a, j, t, ⟨err, done, n', s', hSweep, hFirst⟩,
          hSecond⟩
      · rintro ⟨a, j, t, ⟨err, done, n', s', hSweep,
          hFirst⟩, hSecond⟩
        exact ⟨err, done, n', s', hSweep,
          (ih err done).mpr ⟨a, j, t, hFirst, hSecond⟩⟩

theorem quiet_bind_iff
    {p : Prog C α}
    {f : α → Prog C β}
    {s u : S}
    {b : β} :
    Quiet call whole (p >>= f) s b u ↔
      ∃ a t, Quiet call whole p s a t ∧
        Quiet call whole (f a) t b u := by
  change Quiet call whole (p.bind f) s b u ↔ _
  induction p generalizing s with
  | ret a =>
      constructor
      · intro hRest
        exact ⟨a, s, ⟨rfl, rfl⟩, hRest⟩
      · rintro ⟨_, _, ⟨rfl, rfl⟩, hRest⟩
        exact hRest
  | undefined next ih =>
      constructor
      · exact False.elim
      · rintro ⟨_, _, hFirst, _⟩
        exact hFirst
  | shouldStop next ih => exact ih false
  | call c next ih =>
      constructor
      · rintro ⟨err, s', hCall, hRest⟩
        rcases (ih err).mp hRest with ⟨a, t, hFirst, hSecond⟩
        exact ⟨a, t, ⟨err, s', hCall, hFirst⟩, hSecond⟩
      · rintro ⟨a, t, ⟨err, s', hCall, hFirst⟩, hSecond⟩
        exact ⟨err, s', hCall,
          (ih err).mpr ⟨a, t, hFirst, hSecond⟩⟩
  | sweep c next ih =>
      constructor
      · rintro ⟨err, s', hWhole, hRest⟩
        rcases (ih err _).mp hRest with
          ⟨a, t, hFirst, hSecond⟩
        exact ⟨a, t, ⟨err, s', hWhole, hFirst⟩, hSecond⟩
      · rintro ⟨a, t, ⟨err, s', hWhole, hFirst⟩, hSecond⟩
        exact ⟨err, s', hWhole,
          (ih err _).mpr ⟨a, t, hFirst, hSecond⟩⟩

end Bind

------------------------------------------------------------
-- Executions That Need Not Stop
------------------------------------------------------------

section Stops

variable {m : Meaning C S}
variable {stops : Nat → Bool}
variable {whole : C → S → Error → S → Prop}
variable {p : Prog C α}
variable {n k : Nat}
variable {s t : S}
variable {a : α}

theorem stops_mono
    (hStays :
      ∀ n, stops n = true → stops (n + 1) = true)
    (hLe : n ≤ k)
    (hEnd : stops k = false) :
    stops n = false := by
  induction hLe with
  | refl => exact hEnd
  | @step k _ ih =>
      apply ih
      cases hStops : stops k with
      | false => rfl
      | true =>
          rw [hStays k hStops] at hEnd
          cases hEnd

theorem Executes.le
    (hRun : Executes m stops p n s a k t) :
    n ≤ k := by
  induction p generalizing n s with
  | ret b => exact Nat.le_of_eq hRun.2.1.symm
  | undefined next ih => exact hRun.elim
  | shouldStop next ih => exact Nat.le_of_succ_le (ih _ hRun)
  | call c next ih =>
      rcases hRun with ⟨err, s', _, hRest⟩
      exact ih err hRest
  | sweep c next ih =>
      rcases hRun with ⟨err, done, n', s', hSweep, hRest⟩
      exact Nat.le_trans (m.sweep_le hSweep)
        (ih err done hRest)

/-
  As the stop condition stays, an execution at whose end it
  does not hold is a quiet one, if a sweep is whole whenever
  the condition does not hold after it.
-/
theorem Executes.quiet
    (Inv : S → Prop)
    (hStays :
      ∀ n, stops n = true → stops (n + 1) = true)
    (hCall :
      ∀ {c s err s'}, m.call c s err s' → Inv s → Inv s')
    (hSweep :
      ∀ {c n s err done n' s'},
        m.sweep c n s err done n' s' → Inv s → Inv s')
    (hWhole :
      ∀ {c n s err done n' s'},
        m.sweep c n s err done n' s' → Inv s →
          stops n' = false →
            done = isOk err ∧ whole c s err s')
    (hInv : Inv s)
    (hRun : Executes m stops p n s a k t)
    (hEnd : stops k = false) :
    Quiet m.call whole p s a t := by
  induction p generalizing n s with
  | ret b => exact ⟨hRun.1, hRun.2.2⟩
  | undefined next ih => exact hRun.elim
  | shouldStop next ih =>
      have hLe : n ≤ k :=
        Nat.le_trans (Nat.le_succ n) (Executes.le hRun)
      have hNow := stops_mono hStays hLe hEnd
      unfold Executes at hRun
      rw [hNow] at hRun
      exact ih false hInv hRun
  | call c next ih =>
      rcases hRun with ⟨err, s', hStep, hRest⟩
      exact ⟨err, s', hStep,
        ih err (hCall hStep hInv) hRest⟩
  | sweep c next ih =>
      rcases hRun with ⟨err, done, n', s', hStep, hRest⟩
      have hNow := stops_mono hStays (Executes.le hRest) hEnd
      rcases hWhole hStep hInv hNow with ⟨hDone, hPart⟩
      rw [hDone] at hRest
      exact ⟨err, s', hPart,
        ih err _ (hSweep hStep hInv) hRest⟩

end Stops

end Calls

end MemoryAgent
