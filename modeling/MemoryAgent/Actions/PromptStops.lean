import MemoryAgent.Actions.Rules

/-
  How soon an action stops.  When the cancellation file is
  there or the time is over, at most one more traversal or
  iteration of the heap begins: the one whose check came
  before.

  Key definitions include:
    * `Calls.begun`
    * `Calls.StopsSoon`

  Main results:
    * `Calls.StopsSoon.bind`
    * `Actions.operation_stopsSoon`
-/

------------------------------------------------------------
-- Sweeps that Begin
------------------------------------------------------------

namespace MemoryAgent

namespace Calls

section Begun

variable {C α β : Type}

/- The sweeps that begin in a run, each with its time. -/
def begun
    (w : World C) :
    Prog C α → Nat → List (Nat × C)
| .ret _, _ => []
| .undefined next, n => begun w next n
| .shouldStop next, n => begun w (next (w.stops n)) (n + 1)
| .call c next, n => begun w (next (w.error c)) (n + 1)
| .sweep c next, n =>
    let done :=
      isOk (w.error c) &&
        !(w.aborts c && w.stops (n + 1))
    (n, c) :: begun w (next (w.error c) done) (n + 1)

/- Those that begin when the run has to stop. -/
def late
    (w : World C)
    (p : Prog C α)
    (n : Nat) : List (Nat × C) :=
  (begun w p n).filter (fun sweep => w.stops sweep.1)

theorem late_sweep
    (w : World C)
    (c : C)
    (next : Error → Bool → Prog C α)
    (n : Nat) :
    late w (.sweep c next) n =
      let done :=
        isOk (w.error c) &&
          !(w.aborts c && w.stops (n + 1))
      let rest := late w (next (w.error c) done) (n + 1)
      if w.stops n = true then (n, c) :: rest else rest :=
  List.filter_cons

theorem begun_bind
    (w : World C)
    (p : Prog C α)
    (f : α → Prog C β)
    (n : Nat) :
    begun w (p >>= f) n =
      begun w p n ++
        begun w (f (run w p n).value) (run w p n).time := by
  induction p generalizing n with
  | ret a => rfl
  | undefined next ih => exact ih n
  | shouldStop next ih => exact ih (w.stops n) (n + 1)
  | call c next ih => exact ih (w.error c) (n + 1)
  | sweep c next ih =>
      exact congrArg (List.cons (n, c))
        (ih (w.error c) _ (n + 1))

/- A run that need not stop in the end has no late sweeps. -/
theorem late_eq_nil
    (w : World C)
    (p : Prog C α)
    (n : Nat)
    (hEnd : w.stops (run w p n).time = false) :
    late w p n = [] := by
  induction p generalizing n with
  | ret a => rfl
  | undefined next ih => exact ih n hEnd
  | shouldStop next ih => exact ih (w.stops n) (n + 1) hEnd
  | call c next ih => exact ih (w.error c) (n + 1) hEnd
  | sweep c next ih =>
      have hNow : w.stops n ≠ true := by
        intro hStops
        have hLater :=
          w.stops_of_le (le_run_time w (.sweep c next) n)
            hStops
        rw [hEnd] at hLater
        cases hLater
      rw [late_sweep]
      dsimp only
      rw [if_neg hNow]
      exact ih (w.error c) _ (n + 1) hEnd

/- Completed sweeps have begun. -/
theorem completed_sublist
    (w : World C)
    (p : Prog C α)
    (n : Nat) :
    (run w p n).completed.Sublist
      ((begun w p n).map Prod.snd) := by
  induction p generalizing n with
  | ret a => exact List.Sublist.refl _
  | undefined next ih => exact ih n
  | shouldStop next ih => exact ih (w.stops n) (n + 1)
  | call c next ih => exact ih (w.error c) (n + 1)
  | sweep c next ih =>
      have hRest :=
        ih (w.error c)
          (isOk (w.error c) &&
            !(w.aborts c && w.stops (n + 1)))
          (n + 1)
      unfold run begun
      rw [List.map_cons]
      dsimp only
      split
      · exact hRest.cons_cons c
      · exact hRest.cons c

end Begun

------------------------------------------------------------
-- Programs that Stop Soon
------------------------------------------------------------

section Programs

variable {C α β : Type}

def AtMostOne (p : Prog C α) : Prop :=
  ∀ w n, (late w p n).length ≤ 1

structure StopsSoon (p : Prog C α) : Prop where
  none : ∀ w n, w.stops n = true → begun w p n = []
  atMostOne : AtMostOne p

variable {p : Prog C α}
variable {f : α → Prog C β}

theorem stopsSoon_ret
    (a : α) :
    StopsSoon (.ret a : Prog C α) :=
  ⟨fun _ _ _ => rfl, fun _ _ => Nat.zero_le 1⟩

theorem StopsSoon.undefined
    (hNext : StopsSoon p) :
    StopsSoon (.undefined p) :=
  ⟨hNext.none, hNext.atMostOne⟩

theorem AtMostOne.call
    {c : C}
    {next : Error → Prog C α}
    (hNext : ∀ err, AtMostOne (next err)) :
    AtMostOne (.call c next) :=
  fun w n => hNext (w.error c) w (n + 1)

/- The stop condition, once it holds, holds on. -/
theorem StopsSoon.call
    {c : C}
    {next : Error → Prog C α}
    (hNext : ∀ err, StopsSoon (next err)) :
    StopsSoon (.call c next) := by
  refine ⟨fun w n hStops => ?_,
    AtMostOne.call (fun err => (hNext err).atMostOne)⟩
  exact (hNext (w.error c)).none w (n + 1)
    (w.stops_of_le (Nat.le_succ n) hStops)

/- A check in front, whose negative answer may be late. -/
theorem StopsSoon.shouldStop
    {next : Bool → Prog C α}
    (hStop : StopsSoon (next true))
    (hGo : AtMostOne (next false)) :
    StopsSoon (.shouldStop next) := by
  constructor
  · intro w n hStops
    unfold begun
    rw [hStops]
    exact hStop.none w (n + 1)
      (w.stops_of_le (Nat.le_succ n) hStops)
  · intro w n
    unfold late begun
    cases w.stops n with
    | true => exact hStop.atMostOne w (n + 1)
    | false => exact hGo w (n + 1)

theorem AtMostOne.sweep
    {c : C}
    {next : Error → Bool → Prog C α}
    (hNext : ∀ err done, StopsSoon (next err done)) :
    AtMostOne (.sweep c next) := by
  intro w n
  have hRest :=
    hNext (w.error c)
      (isOk (w.error c) &&
        !(w.aborts c && w.stops (n + 1)))
  rw [late_sweep]
  dsimp only
  by_cases hStops : w.stops n = true
  · rw [if_pos hStops, late,
      hRest.none w (n + 1)
        (w.stops_of_le (Nat.le_succ n) hStops)]
    exact Nat.le_refl 1
  · rw [if_neg hStops]
    exact hRest.atMostOne w (n + 1)

/-
  If the run has to stop after the first program, then the
  second begins no sweep; else the first had none late.
-/
theorem StopsSoon.bind
    (hFirst : StopsSoon p)
    (hNext : ∀ a, StopsSoon (f a)) :
    StopsSoon (p >>= f) := by
  constructor
  · intro w n hStops
    have hLater :=
      w.stops_of_le (le_run_time w p n) hStops
    rw [begun_bind, hFirst.none w n hStops,
      (hNext _).none w _ hLater]
    rfl
  · intro w n
    unfold late
    rw [begun_bind, List.filter_append, List.length_append]
    cases hEnd : w.stops (run w p n).time with
    | true =>
        rw [(hNext _).none w _ hEnd]
        exact hFirst.atMostOne w n
    | false =>
        have hNone := late_eq_nil w p n hEnd
        unfold late at hNone
        rw [hNone, List.length_nil, Nat.zero_add]
        exact (hNext _).atMostOne w _

theorem StopsSoon.andThen
    {p q : Prog C Error}
    (hFirst : StopsSoon p)
    (hNext : StopsSoon q) :
    StopsSoon (andThen p q) := by
  refine hFirst.bind (fun err => ?_)
  split
  · exact hNext
  · exact stopsSoon_ret err

theorem StopsSoon.forEach
    {body : β → Prog C Error}
    (xs : List β)
    (hBody : ∀ x, StopsSoon (body x)) :
    StopsSoon (forEach body xs) := by
  induction xs with
  | nil => exact stopsSoon_ret 0
  | cons x xs ih => exact (hBody x).andThen ih

end Programs

end Calls

------------------------------------------------------------
-- Operations
------------------------------------------------------------

namespace Actions

open Calls

theorem stopsSoon_jvmti
    (c : Call) :
    StopsSoon (jvmti c) :=
  .call stopsSoon_ret

/- Here the check is two steps before the traversal. -/
theorem stopsSoon_walkHeapFromObjects
    (walks : List Bool) :
    StopsSoon (walkHeapFromObjects walks) := by
  refine .forEach _ (fun walk => ?_)
  refine .shouldStop (stopsSoon_ret _) ?_
  refine .call (fun err => ?_)
  change AtMostOne (if isOk err then _ else _)
  split
  · split
    · exact .sweep (fun err _ => stopsSoon_ret err)
    · exact (stopsSoon_ret _).atMostOne
  · exact (stopsSoon_ret err).atMostOne

theorem closed_stopsSoon :
    Closed StopsSoon where
  ret := stopsSoon_ret
  bind := StopsSoon.bind
  jvmti := fun c _ => stopsSoon_jvmti c
  getIndex := by
    intro place _
    refine (stopsSoon_jvmti _).bind (fun err => ?_)
    split
    · exact stopsSoon_ret _
    · exact (stopsSoon_ret _).undefined
  loaded := by
    intro p hNext
    refine (stopsSoon_jvmti _).bind (fun err => ?_)
    split
    · exact hNext
    · exact (stopsSoon_ret _).undefined
  shouldStop :=
    .shouldStop (stopsSoon_ret _) (stopsSoon_ret _).atMostOne
  unlessStopped := fun hStop hGo =>
    .shouldStop hStop hGo.atMostOne
  FollowReferences := fun callback =>
    .shouldStop (stopsSoon_ret _)
      (.sweep (fun err done => stopsSoon_ret (err, done)))
  IterateThroughHeap := fun callback =>
    .shouldStop (stopsSoon_ret _)
      (.sweep (fun err done => stopsSoon_ret (err, done)))
  walkHeapFromObjects := stopsSoon_walkHeapFromObjects

/-
  Whatever the calls return and whenever the run has to
  stop, at most one traversal or iteration of the heap
  begins from then on, `cleanHeap` apart.  If the run has to
  stop when it starts, then none begins.
-/
theorem operation_stopsSoon
    (a : Action)
    (w : World Call) :
    (late w (executeOperation a) 0).length ≤ 1 ∧
      (w.stops 0 = true →
        begun w (executeOperation a) 0 = [] ∧
          (Calls.run w (executeOperation a) 0).completed =
            []) := by
  have hSoon := closed_stopsSoon.executeOperation a
  refine ⟨hSoon.atMostOne w 0, fun hStops => ?_⟩
  have hNone := hSoon.none w 0 hStops
  refine ⟨hNone, ?_⟩
  have hCompleted :=
    completed_sublist w (executeOperation a) 0
  rw [hNone] at hCompleted
  exact List.sublist_nil.mp hCompleted

end Actions

end MemoryAgent
