import Mathlib.Data.List.Basic
import MemoryAgent.Allocations.CallSteps

/-
  The notifications between the steps of the calls, and the
  runs of both.

  Main results:
    * `Allocations.notify_keeps`
    * `Allocations.execute_keeps`
    * `Allocations.execute_breaks`
    * `Allocations.right_throughout_iff`
-/

------------------------------------------------------------
-- Steps of the notifications
------------------------------------------------------------

namespace MemoryAgent

namespace Allocations

open PartialSteps

variable {L C : Type}
variable {equals : L → L → Bool}
variable {s : Session L C}

/- The element that a notification meets is a holder. -/
theorem Reads.getElem?
    (hInv : Invariant equals s)
    {array i : Nat}
    {hs : List (AllocationListenerHolder L C)}
    (hReads : Reads equals s array i hs)
    (hClear : s.point.pending ≠ some (array, i)) :
    ∃ content,
      s.arrays[array]? = some content ∧
        content[i]? = hs[i]?.map some := by
  rcases hReads with ⟨hHolds, _⟩ | ⟨hPlace, hi, hEq⟩
  · exact ⟨_, hHolds, List.getElem?_map⟩
  · have hHolds := (hInv.stands.pending hPlace).2.1
    have hNe : i ≠ hs.length := by
      intro hLast
      exact hClear (hLast ▸ hPlace)
    refine ⟨_, hHolds, ?_⟩
    rw [← listenersAfter, ← hEq, List.getElem?_append_left,
      List.getElem?_map]
    rw [List.length_map]
    omega

theorem Reads.served
    {array i : Nat}
    {hs : List (AllocationListenerHolder L C)}
    (hReads : Reads equals s array i hs)
    (hClear : s.point.pending ≠ some (array, i))
    (hEnd : hs.length ≤ i) :
    s.arrays[array]? = some (hs.map some) ∧
      Served equals s hs := by
  rcases hReads with hListed | ⟨hPlace, hi, _⟩
  · exact hListed
  · have hLast : hs.length = i := Nat.le_antisymm hEnd hi
    exact absurd (hLast ▸ hPlace) hClear

theorem Reads.succ
    {array i : Nat}
    {hs : List (AllocationListenerHolder L C)}
    (hReads : Reads equals s array i hs)
    (hRange : i < hs.length) :
    Reads equals s array (i + 1) hs := by
  rcases hReads with hListed | ⟨hPlace, _, hEq⟩
  · exact Or.inl hListed
  · exact Or.inr ⟨hPlace, hRange, hEq⟩

theorem notify_keeps
    (hInv : Invariant equals s)
    {n n' : Notification L C}
    (hn : n ∈ s.notifications)
    (hClear :
      ∀ array i called, n = .loop array i called →
        s.point.pending ≠ some (array, i))
    (hStep : notify s n = some n') :
    Follows equals s n' ∧ Shares s n' := by
  have hn' (hSame : n'.array = n.array) : Shares s n' :=
    Or.inr (Or.inr ⟨n, hn, hSame⟩)
  have hFollows := hInv.follows n hn
  cases n with
  | read =>
      simp only [notify] at hStep
      split at hStep
      · rename_i array _ hField
        cases hStep
        refine
          ⟨⟨(registryAfter equals s.completed).holders,
            ?_, rfl⟩, Or.inr (Or.inl hField.symm)⟩
        rcases hInv.stands.field hField with hHolds | hPlace
        · exact Or.inl ⟨hHolds, Served.now equals s⟩
        · exact Or.inr ⟨hPlace, Nat.zero_le _, rfl⟩
      · cases hStep
        exact ⟨rfl, Or.inl rfl⟩
  | loop array i called =>
      have hPlace := hClear array i called rfl
      rcases hFollows with ⟨hs, hReads, hCalled⟩
      rcases hReads.getElem? hInv hPlace with
        ⟨content, hHolds, hElement⟩
      simp only [notify, hHolds, Option.bind_eq_bind,
        Option.bind_some, hElement] at hStep
      by_cases hRange : i < hs.length
      · rw [List.getElem?_eq_getElem hRange] at hStep
        cases hStep
        refine ⟨⟨hs, hReads.succ hRange, ?_⟩, hn' rfl⟩
        rw [hCalled, List.take_append_getElem]
      · have hEnd : hs.length ≤ i := Nat.le_of_not_lt hRange
        rw [List.getElem?_eq_none hEnd] at hStep
        cases hStep
        rw [List.take_of_length_le hEnd] at hCalled
        subst hCalled
        exact ⟨hReads.served hPlace hEnd, hn' rfl⟩
  | ended array called => cases hStep
  | metNull array i called => cases hStep

------------------------------------------------------------
-- Runs
------------------------------------------------------------

theorem Invariant.initial
    (equals : L → L → Bool) :
    Invariant equals (Session.initial L C) := by
  refine ⟨⟨rfl, Or.inl ⟨rfl, rfl⟩⟩, ?_⟩
  intro n hn
  cases hn

/- The notifications change, and nothing else. -/
theorem Invariant.notifications
    (hInv : Invariant equals s)
    {ns : List (Notification L C)}
    (hns : ∀ n ∈ ns, Follows equals s n ∧ Shares s n) :
    Invariant equals { s with notifications := ns } := by
  refine ⟨?_, ?_⟩
  · exact hInv.stands.notifications (fun n hn => (hns n hn).2)
  · intro n hn
    refine (hns n hn).1.keep ?_ (List.prefix_refl _) ?_
    · intro array content _ hHolds
      exact hHolds
    · intro place hPlace
      exact ⟨hPlace, rfl⟩

theorem Invariant.shares
    (hInv : Invariant equals s)
    {n : Notification L C}
    (hn : n ∈ s.notifications) :
    Follows equals s n ∧ Shares s n :=
  ⟨hInv.follows n hn, Or.inr (Or.inr ⟨n, hn, rfl⟩)⟩

theorem execute_keeps
    (s : Session L C)
    (command : Command L C)
    (s' : Session L C)
    (hInv : Invariant equals s)
    (hClear : Clear s command)
    (hStep : execute equals s command = some s') :
    Invariant equals s' := by
  cases command with
  | call c =>
      simp only [execute] at hStep
      split at hStep
      · rename_i hPoint
        cases hStep
        have hSettled :
            Settled s (registryAfter equals s.completed) :=
          hInv.stands_at hPoint
        refine ⟨⟨hSettled.created, hSettled.listeners⟩, ?_⟩
        exact hInv.follows_same (by rw [hPoint]; rfl) rfl
          (List.prefix_refl _) rfl
      · cases hStep
  | advance =>
      have hBusy : s.point ≠ .idle := by
        intro hPoint
        simp only [execute, advance, hPoint] at hStep
        cases hStep
      rcases advance_keeps hInv hBusy with ⟨s'', hEq, hInv'⟩
      simp only [execute, hEq] at hStep
      cases hStep
      exact hInv'
  | sample =>
      cases hStep
      apply hInv.notifications
      intro n hn
      rcases List.mem_append.mp hn with hn | hn
      · exact hInv.shares hn
      · rw [List.mem_singleton.mp hn]
        exact ⟨trivial, Or.inl rfl⟩
  | notify j =>
      simp only [execute, Option.bind_eq_bind,
        Option.bind_eq_some_iff] at hStep
      rcases hStep with ⟨n, hn, n', hNotify, hEq⟩
      cases hEq
      have hMem : n ∈ s.notifications :=
        List.mem_of_getElem? hn
      apply hInv.notifications
      intro m hm
      rcases List.mem_or_eq_of_mem_set hm with hm | hm
      · exact hInv.shares hm
      · subst hm
        apply notify_keeps hInv hMem _ hNotify
        intro array i called hLoop
        subst hLoop
        exact hClear array i called hn

/- A notification that comes to the place meets null. -/
theorem execute_breaks
    (s : Session L C)
    (command : Command L C)
    (hInv : Invariant equals s)
    (hClear : ¬ Clear s command) :
    ∃ s', execute equals s command = some s' ∧
      ¬ AllRight equals s' := by
  cases command with
  | call c => exact absurd trivial hClear
  | advance => exact absurd trivial hClear
  | sample => exact absurd trivial hClear
  | notify j =>
      simp only [Clear, not_forall, not_not] at hClear
      rcases hClear with ⟨array, i, called, hn, hPlace⟩
      rcases hInv.stands.pending hPlace with ⟨_, hHolds, hLast⟩
      have hNotify :
          notify s (.loop array i called) =
            some (.metNull array i called) := by
        simp only [notify, hHolds]
        simp [hLast]
      have hStep :
          execute equals s (.notify j) =
            some { s with
              notifications := s.notifications.set j
                (.metNull array i called) } := by
        simp only [execute, hn, Option.bind_eq_bind,
          Option.bind_some, hNotify]
      refine ⟨_, hStep, ?_⟩
      intro hRight
      have hRange := (List.getElem?_eq_some_iff.mp hn).1
      exact hRight (.metNull array i called)
        (List.mem_set hRange _)

theorem Invariant.allRight
    (hInv : Invariant equals s) :
    AllRight equals s := by
  intro n hn
  have hFollows := hInv.follows n hn
  cases n with
  | read => trivial
  | loop array i called =>
      rcases hFollows with
        ⟨hs, ⟨hHolds, _⟩ | ⟨hPlace, hi, hEq⟩, hCalled⟩
      · refine ⟨_, hHolds, ?_⟩
        rw [hCalled, List.map_take]
      · refine ⟨_, (hInv.stands.pending hPlace).2.1, ?_⟩
        rw [hCalled, List.map_take, hEq, listenersAfter]
        rw [List.take_append_of_le_length]
        rw [hEq] at hi
        rw [List.length_map]
        exact hi
  | ended array called =>
      cases array with
      | none => exact hFollows
      | some array =>
          rcases hFollows with ⟨hHolds, k, hk, hEq⟩
          refine ⟨hHolds, ?_, k, hk, hEq⟩
          rw [hEq]
          exact (registryAfter_numbered equals _).increasing
  | metNull array i called => exact hFollows

/-
  In the runs of the calls and the notifications, whatever
  their order, the notifications are right in every state if
  and only if none of them reads the published array at the
  place where `add` has yet to store the holder.
-/
theorem right_throughout_iff
    (equals : L → L → Bool)
    (commands : List (Command L C)) :
    Throughout (execute equals) (AllRight equals)
        (Session.initial L C) commands ↔
      EveryStep (execute equals) Clear
        (Session.initial L C) commands :=
  throughout_iff_everyStep
    (fun _ hInv => Invariant.allRight hInv)
    execute_keeps
    execute_breaks
    (Invariant.initial equals)
    commands

/-
  One listener is added.  An allocation is sampled after the
  array is published and before the holder is stored, such
  as that of the holder itself.
-/
theorem not_right_throughout :
    ¬ Throughout
        (execute (fun l₁ l₂ : Nat => l₁ == l₂))
        (AllRight (fun l₁ l₂ : Nat => l₁ == l₂))
        (Session.initial Nat Nat)
        [.call (.addAllocationListener ⟨0, [], true⟩),
          .advance, .advance, .advance, .advance, .advance,
          .advance, .advance, .sample, .notify 0,
          .notify 0] := by
  intro hRun
  have hLast := hRun.last rfl
  exact hLast (.metNull 1 0 []) (List.mem_singleton_self _)

end Allocations

end MemoryAgent
