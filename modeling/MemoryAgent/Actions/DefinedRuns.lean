import MemoryAgent.Actions.Rules

/-
  The runs whose behaviour is defined: those in which no
  call fails that leaves an index or a bound unassigned.

  Key definitions include:
    * `Calls.Guarded`

  Main results:
    * `Calls.Guarded.bind`
    * `Actions.operationRun_defined_iff`
-/

------------------------------------------------------------
-- Guarded Programs
------------------------------------------------------------

namespace MemoryAgent

namespace Calls

variable {C α β : Type}

theorem run_bind
    (w : World C)
    (p : Prog C α)
    (f : α → Prog C β)
    (n : Nat) :
    let first := run w p n
    let rest := run w (f first.value) first.time
    (run w (p >>= f) n).calls = first.calls ++ rest.calls ∧
      (run w (p >>= f) n).defined =
        (first.defined && rest.defined) := by
  change
    (run w (p.bind f) n).calls = _ ∧
      (run w (p.bind f) n).defined = _
  induction p generalizing n with
  | ret a => exact ⟨rfl, (Bool.true_and _).symm⟩
  | undefined next ih =>
      exact ⟨(ih n).1, (Bool.false_and _).symm⟩
  | shouldStop next ih => exact ih (w.stops n) (n + 1)
  | call c next ih =>
      have hRest := ih (w.error c) (n + 1)
      exact ⟨congrArg (List.cons c) hRest.1, hRest.2⟩
  | sweep c next ih =>
      have hRest :=
        ih (w.error c)
          (isOk (w.error c) &&
            !(w.aborts c && w.stops (n + 1)))
          (n + 1)
      exact ⟨congrArg (List.cons c) hRest.1, hRest.2⟩

/-
  The behaviour is undefined exactly where one of the calls
  in `K` fails.
-/
def Guarded
    (K : C → Prop)
    (p : Prog C α) : Prop :=
  ∀ w n,
    (run w p n).defined = true ↔
      ∀ c ∈ (run w p n).calls, K c → w.error c = 0

variable {K : C → Prop}
variable {p : Prog C α}
variable {f : α → Prog C β}

theorem guarded_ret
    (a : α) :
    Guarded K (.ret a : Prog C α) :=
  fun _ _ =>
    iff_of_true rfl (fun _ hMem => absurd hMem List.not_mem_nil)

theorem Guarded.shouldStop
    {next : Bool → Prog C α}
    (hNext : ∀ stop, Guarded K (next stop)) :
    Guarded K (.shouldStop next) :=
  fun w n => hNext (w.stops n) w (n + 1)

/- The rest is defined, and the call is not one in `K`. -/
theorem forall_mem_cons_of_not
    {c : C}
    {calls : List C}
    {Q : C → Prop}
    (hNot : ¬ K c) :
    (∀ d ∈ c :: calls, K d → Q d) ↔
      ∀ d ∈ calls, K d → Q d := by
  rw [List.forall_mem_cons]
  exact and_iff_right (fun hK => absurd hK hNot)

theorem Guarded.call
    {c : C}
    {next : Error → Prog C α}
    (hNot : ¬ K c)
    (hNext : ∀ err, Guarded K (next err)) :
    Guarded K (.call c next) := by
  intro w n
  exact (hNext (w.error c) w (n + 1)).trans
    (forall_mem_cons_of_not hNot).symm

theorem Guarded.sweep
    {c : C}
    {next : Error → Bool → Prog C α}
    (hNot : ¬ K c)
    (hNext : ∀ err done, Guarded K (next err done)) :
    Guarded K (.sweep c next) := by
  intro w n
  exact (hNext (w.error c) _ w (n + 1)).trans
    (forall_mem_cons_of_not hNot).symm

/- A call whose answer is used without a look at its code. -/
theorem Guarded.unchecked
    {c : C}
    (hK : K c)
    (hNext : Guarded K p)
    (q : Prog C α) :
    Guarded K
      (.call c (fun err =>
        if isOk err then p else .undefined q)) := by
  intro w n
  unfold run
  dsimp only
  by_cases hOk : w.error c = 0
  · rw [hOk]
    change (run w p (n + 1)).defined = true ↔
      ∀ d ∈ c :: (run w p (n + 1)).calls, _
    rw [hNext w (n + 1), List.forall_mem_cons]
    exact (and_iff_right (fun _ => hOk)).symm
  · have hFailed : ¬ isOk (w.error c) = true :=
      fun hTrue => hOk (isOk_iff.mp hTrue)
    rw [if_neg hFailed]
    refine iff_of_false Bool.false_ne_true ?_
    intro hAll
    exact hOk (hAll c List.mem_cons_self hK)

theorem Guarded.bind
    (hFirst : Guarded K p)
    (hNext : ∀ a, Guarded K (f a)) :
    Guarded K (p >>= f) := by
  intro w n
  rcases run_bind w p f n with ⟨hCalls, hDefined⟩
  rw [hCalls, hDefined, Bool.and_eq_true, hFirst w n,
    hNext _ w _, List.forall_mem_append]

theorem Guarded.forEach
    {body : β → Prog C Error}
    (xs : List β)
    (hBody : ∀ x, Guarded K (body x)) :
    Guarded K (forEach body xs) := by
  induction xs with
  | nil => exact guarded_ret 0
  | cons x xs ih =>
      refine (hBody x).bind (fun err => ?_)
      split
      · exact ih
      · exact guarded_ret err

end Calls

------------------------------------------------------------
-- Operations
------------------------------------------------------------

namespace Actions

open Calls

theorem guarded_jvmti
    {c : Call}
    (hChecked : isUnchecked c = false) :
    Guarded (isUnchecked · = true) (jvmti c) :=
  Guarded.call (Bool.eq_false_iff.mp hChecked) guarded_ret

theorem guarded_walkHeapFromObjects
    (walks : List Bool) :
    Guarded (isUnchecked · = true)
      (walkHeapFromObjects walks) := by
  refine .forEach _ (fun walk => ?_)
  refine .shouldStop (fun stop => ?_)
  cases stop with
  | true => exact guarded_ret _
  | false =>
      refine .call Bool.false_ne_true (fun err => ?_)
      change Guarded _ (if isOk err then _ else _)
      split
      · split
        · exact .sweep Bool.false_ne_true
            (fun err _ => guarded_ret err)
        · exact guarded_ret _
      · exact guarded_ret err

theorem closed_guarded :
    Closed (Guarded (isUnchecked · = true)) where
  ret := guarded_ret
  bind := Guarded.bind
  jvmti := fun _ hChecked => guarded_jvmti hChecked
  getIndex := fun _ hTag =>
    Guarded.unchecked (K := (isUnchecked · = true)) hTag
      (guarded_ret ()) _
  loaded := fun hNext =>
    Guarded.unchecked (K := (isUnchecked · = true)) rfl
      hNext _
  shouldStop := .shouldStop guarded_ret
  unlessStopped := by
    intro α p q hStop hGo
    refine .shouldStop (fun stop => ?_)
    cases stop with
    | true => exact hStop
    | false => exact hGo
  FollowReferences := by
    intro callback
    refine .shouldStop (fun stop => ?_)
    cases stop with
    | true => exact guarded_ret _
    | false =>
        exact .sweep Bool.false_ne_true
          (fun err done => guarded_ret (err, done))
  IterateThroughHeap := by
    intro callback
    refine .shouldStop (fun stop => ?_)
    cases stop with
    | true => exact guarded_ret _
    | false =>
        exact .sweep Bool.false_ne_true
          (fun err done => guarded_ret (err, done))
  walkHeapFromObjects := guarded_walkHeapFromObjects

/-
  A run of an action is defined exactly if none of the calls
  fails whose answers it uses unchecked.
-/
theorem operationRun_defined_iff
    (a : Action)
    (w : World Call) :
    (operationRun a w).defined = true ↔
      ∀ c ∈ (operationRun a w).calls,
        isUnchecked c = true → w.error c = 0 := by
  have hClean : Guarded (isUnchecked · = true) cleanHeap :=
    (guarded_jvmti rfl).bind (fun _ => guarded_ret ())
  have hRun :
      Guarded (isUnchecked · = true)
        (do
          let result ← executeOperation a
          cleanHeap
          pure result) :=
    (closed_guarded.executeOperation a).bind
      (fun _ => hClean.bind (fun _ => guarded_ret _))
  exact hRun w 0

end Actions

end MemoryAgent
