import Mathlib.Data.List.Basic
import MemoryAgent.Allocations.Interleavings

/-
  Sessions in which the first `addAllocationListener` cannot
  initialize the native side.

  That call throws.  `listeners` is no longer null from then
  on, so that no later call asks the native side again:
  later calls return and register their listeners, and no
  notification ever reads them.

  Main results:
    * `Allocations.unheard_after_failure`
-/

------------------------------------------------------------
-- Unheard Sessions
------------------------------------------------------------

namespace MemoryAgent

namespace Allocations

open PartialSteps

variable {L C : Type}
variable {equals : L → L → Bool}
variable {s s' : Session L C}

def Command.addition : Command L C → Option (Addition L C)
| .call (.addAllocationListener c) => some c
| _ => none

def Call.isAddition : Call L C → Bool
| .addAllocationListener _ => true
| .removeAllocationListener _ => false

/- Until the first addition has failed, and after that. -/
inductive Stage
    (s : Session L C)
    (rest : List (Command L C)) : Prop
  | before :
      s.listenerHolders = none →
        (s.point = .idle ∨
          ∃ l, s.point =
            .enter (.removeAllocationListener l)) →
          (∀ c ∈ s.completed, c.isAddition = false) →
            (∀ c,
              (rest.filterMap Command.addition).head? =
                  some c →
                c.initialized = false) →
              Stage s rest
  | entered (c : Addition L C) :
      s.listenerHolders = none →
        s.point = .enter (.addAllocationListener c) →
          c.initialized = false →
            (∀ c ∈ s.completed, c.isAddition = false) →
              Stage s rest
  | asking (c : Addition L C) :
      s.listenerHolders ≠ none →
        s.point = .initArrayOfListeners c →
          c.initialized = false →
            (∀ c ∈ s.completed, c.isAddition = false) →
              Stage s rest
  | failed :
      s.listenerHolders ≠ none →
        (∀ c, s.point ≠ .initArrayOfListeners c) →
          Stage s rest

/- The native side has no listeners. -/
structure Unheard
    (s : Session L C)
    (rest : List (Command L C)) : Prop where
  mirror : s.mirrorObject = false
  notifications :
    ∀ n ∈ s.notifications, n = .read ∨ n = .ended none []
  stage : Stage s rest

theorem Unheard.call
    {rest : List (Command L C)}
    {c : Call L C}
    (hUnheard : Unheard s (.call c :: rest))
    (hIdle : s.point = .idle) :
    Unheard { s with point := .enter c } rest := by
  refine ⟨hUnheard.mirror, hUnheard.notifications, ?_⟩
  cases hUnheard.stage with
  | before hField _ hCompleted hFirst =>
      cases c with
      | addAllocationListener c =>
          exact .entered c hField rfl (hFirst c rfl) hCompleted
      | removeAllocationListener l =>
          exact .before hField (Or.inr ⟨l, rfl⟩) hCompleted
            hFirst
  | entered c _ hPoint _ _ =>
      rw [hIdle] at hPoint
      cases hPoint
  | asking c _ hPoint _ _ =>
      rw [hIdle] at hPoint
      cases hPoint
  | failed hField _ => exact .failed hField (by simp)

theorem Unheard.advance
    {rest : List (Command L C)}
    (hUnheard : Unheard s (.advance :: rest))
    (hStep : advance equals s = some s') :
    Unheard s' rest := by
  rcases hUnheard with ⟨hMirror, hNotifications, hStage⟩
  cases hStage with
  | before hField hPoint hCompleted hFirst =>
      rcases hPoint with hPoint | ⟨l, hPoint⟩
      · simp only [Allocations.advance, hPoint] at hStep
        cases hStep
      · simp only [Allocations.advance, hPoint, if_pos hField]
          at hStep
        cases hStep
        refine ⟨hMirror, hNotifications, ?_⟩
        refine .before hField (Or.inl rfl) ?_ hFirst
        intro c hc
        rcases List.mem_append.mp hc with hc | hc
        · exact hCompleted c hc
        · rw [List.mem_singleton.mp hc]
          rfl
  | entered c hField hPoint hInit hCompleted =>
      simp only [Allocations.advance, hPoint, if_pos hField]
        at hStep
      cases hStep
      exact ⟨hMirror, hNotifications,
        .asking c (by simp) rfl hInit hCompleted⟩
  | asking c hField hPoint hInit hCompleted =>
      simp only [Allocations.advance, hPoint, hInit] at hStep
      cases hStep
      exact ⟨hMirror, hNotifications,
        .failed hField (by simp)⟩
  | failed hField hPoint =>
      have hNext := advanced_of_advance hStep
      refine ⟨(hNext.mirror hPoint).trans hMirror,
        hNext.notifications ▸ hNotifications,
        .failed (hNext.field hField) ?_⟩
      exact fun c hAsks => hField (hNext.asks c hAsks)

theorem Stage.notifications
    {rest : List (Command L C)}
    {command : Command L C}
    {ns : List (Notification L C)}
    (hStage : Stage s (command :: rest))
    (hNone : command.addition = none) :
    Stage { s with notifications := ns } rest := by
  cases hStage with
  | before hField hPoint hCompleted hFirst =>
      rw [List.filterMap_cons_none hNone] at hFirst
      exact .before hField hPoint hCompleted hFirst
  | entered c hField hPoint hInit hCompleted =>
      exact .entered c hField hPoint hInit hCompleted
  | asking c hField hPoint hInit hCompleted =>
      exact .asking c hField hPoint hInit hCompleted
  | failed hField hPoint => exact .failed hField hPoint

theorem Unheard.execute
    {rest : List (Command L C)}
    {command : Command L C}
    (hUnheard : Unheard s (command :: rest))
    (hStep : execute equals s command = some s') :
    Unheard s' rest := by
  cases command with
  | call c =>
      simp only [Allocations.execute] at hStep
      split at hStep
      · rename_i hPoint
        cases hStep
        exact hUnheard.call hPoint
      · cases hStep
  | advance => exact hUnheard.advance hStep
  | sample =>
      cases hStep
      refine ⟨hUnheard.mirror, ?_,
        hUnheard.stage.notifications rfl⟩
      intro n hn
      rcases List.mem_append.mp hn with hn | hn
      · exact hUnheard.notifications n hn
      · exact Or.inl (List.mem_singleton.mp hn)
  | notify j =>
      simp only [Allocations.execute, Option.bind_eq_bind,
        Option.bind_eq_some_iff] at hStep
      rcases hStep with ⟨n, hn, n', hNotify, hEq⟩
      cases hEq
      refine ⟨hUnheard.mirror, ?_,
        hUnheard.stage.notifications rfl⟩
      intro m hm
      rcases List.mem_or_eq_of_mem_set hm with hm | hm
      · exact hUnheard.notifications m hm
      · subst hm
        rcases hUnheard.notifications n
            (List.mem_of_getElem? hn) with rfl | rfl
        · simp only [notify, hUnheard.mirror] at hNotify
          cases hNotify
          exact Or.inr rfl
        · cases hNotify

------------------------------------------------------------
-- Runs
------------------------------------------------------------

theorem Unheard.initial
    {commands : List (Command L C)}
    (hFirst :
      ∀ c,
        (commands.filterMap Command.addition).head? = some c →
          c.initialized = false) :
    Unheard (Session.initial L C) commands :=
  ⟨rfl, fun _ hn => absurd hn List.not_mem_nil,
    .before rfl (Or.inl rfl)
      (fun _ hc => absurd hc List.not_mem_nil) hFirst⟩

/- No notification of an unheard session is in its loop. -/
theorem Unheard.clear
    {rest : List (Command L C)}
    (hUnheard : Unheard s rest)
    (command : Command L C) :
    Clear s command := by
  cases command with
  | notify j =>
      intro array i called hn
      rcases hUnheard.notifications _
          (List.mem_of_getElem? hn) with hRead | hEnded
      · cases hRead
      · cases hEnded
  | _ => trivial

theorem Unheard.run
    {commands : List (Command L C)}
    (hInv : Invariant equals s)
    (hUnheard : Unheard s commands)
    (hRun :
      commands.foldlM (Allocations.execute equals) s =
        some s') :
    Invariant equals s' ∧ Unheard s' [] := by
  induction commands generalizing s with
  | nil =>
      cases hRun
      exact ⟨hInv, hUnheard⟩
  | cons command rest ih =>
      simp only [List.foldlM_cons, Option.bind_eq_bind,
        Option.bind_eq_some_iff] at hRun
      rcases hRun with ⟨s₁, hStep, hRest⟩
      exact ih
        (execute_keeps s command s₁ hInv
          (hUnheard.clear command) hStep)
        (hUnheard.execute hStep) hRest

/-
  When the native side cannot be initialized by the first
  addition, only that addition throws.  The listeners of the
  later ones are registered as usual, and whatever the order
  of the steps no notification calls a listener.
-/
theorem unheard_after_failure
    {L C : Type}
    (equals : L → L → Bool)
    (commands : List (Command L C))
    (s : Session L C)
    (hFirst :
      ∀ c,
        (commands.filterMap Command.addition).head? = some c →
          c.initialized = false)
    (hRun :
      commands.foldlM (execute equals)
        (Session.initial L C) = some s) :
    (∀ n ∈ s.notifications, n = .read ∨ n = .ended none []) ∧
    (∀ c, s.point = .initArrayOfListeners c →
      ∀ c ∈ s.completed, c.isAddition = false) ∧
    (s.point = .idle →
      s.content.getD [] =
        (listenersAfter equals s.completed).map some) := by
  rcases Unheard.run (Invariant.initial equals)
      (Unheard.initial hFirst) hRun with ⟨hInv, hUnheard⟩
  refine ⟨hUnheard.notifications, ?_, hInv.content_of_idle⟩
  intro c hAsking
  cases hUnheard.stage with
  | before _ hPoint _ _ =>
      rcases hPoint with hPoint | ⟨l, hPoint⟩
      · rw [hAsking] at hPoint
        cases hPoint
      · rw [hAsking] at hPoint
        cases hPoint
  | entered _ _ hPoint _ _ =>
      rw [hAsking] at hPoint
      cases hPoint
  | asking _ _ _ _ hCompleted => exact hCompleted
  | failed _ hPoint => exact absurd hAsking (hPoint c)

/- The second addition is not heard either. -/
def failedTwice : List (Command Nat Nat) :=
  [.call (.addAllocationListener ⟨7, [], false⟩), .advance,
    .advance, .call (.addAllocationListener ⟨8, [], false⟩)] ++
      List.replicate 7 .advance ++ [.sample, .notify 0]

theorem unheard_after_failure_twice :
    ∃ s,
      failedTwice.foldlM (execute (· == ·))
          (Session.initial Nat Nat) = some s ∧
      s.content = some [some ⟨0, 8, []⟩] ∧
      ∀ n ∈ s.notifications,
        n = .read ∨ n = .ended none [] := by
  refine ⟨_, rfl, rfl, ?_⟩
  exact (unheard_after_failure (· == ·) failedTwice _
    (by intro c hc; cases hc; rfl) rfl).1

end Allocations

end MemoryAgent
