import Mathlib.Data.List.Basic
import Mathlib.Data.List.Induction
import MemoryAgent.Allocations.Listeners
import MemoryAgent.Graph.PartialSteps

/-
  What a run of `notifyAll` calls, however it is interleaved
  with the steps of the calls that add and remove listeners.

  `add` publishes the longer array before the new holder is
  created and stored.  A notification that comes to the last
  element in between meets null, and this is the only way in
  which a run goes wrong.

  Key definitions include:
    * `Allocations.Registry`
    * `Allocations.Right`
    * `Allocations.AllRight`
    * `Allocations.Clear`

  Main results:
    * `Allocations.registryAfter_append`
    * `Allocations.registryAfter_numbered`
-/

------------------------------------------------------------
-- Registries
------------------------------------------------------------

namespace MemoryAgent

namespace Allocations

/-
  What the listeners are for: those that were added and not
  removed, in the order of their registration.  `count` of
  them were ever added.
-/
structure Registry (L C : Type) where
  listeners : Option (List (AllocationListenerHolder L C))
  count : Nat

namespace Registry

variable {L C : Type}

def holders
    (r : Registry L C) :
    List (AllocationListenerHolder L C) :=
  r.listeners.getD []

theorem holders_of_none
    {r : Registry L C}
    (h : r.listeners = none) :
    r.holders = [] := by
  rw [holders, h]
  rfl

def nextHolder
    (r : Registry L C)
    (c : Addition L C) : AllocationListenerHolder L C :=
  ⟨r.count, c.allocationListener, c.trackedClasses⟩

/- Nothing is added if the native side turns it down. -/
def after
    (equals : L → L → Bool)
    (r : Registry L C) : Call L C → Registry L C
| .addAllocationListener c =>
    if r.listeners.isNone && !c.initialized then
      ⟨some [], r.count⟩
    else
      ⟨some (r.holders ++ [r.nextHolder c]), r.count + 1⟩
| .removeAllocationListener l =>
    ⟨r.listeners.map
      (List.eraseP (fun h => equals h.listener l)), r.count⟩

structure Numbered (r : Registry L C) : Prop where
  increasing :
    r.holders.Pairwise (fun h₁ h₂ => h₁.number < h₂.number)
  below : ∀ h ∈ r.holders, h.number < r.count

theorem Numbered.after
    {r : Registry L C}
    (hr : r.Numbered)
    (equals : L → L → Bool)
    (c : Call L C) :
    (r.after equals c).Numbered := by
  cases c with
  | addAllocationListener c =>
      simp only [Registry.after]
      split
      · exact ⟨List.Pairwise.nil, by simp [holders]⟩
      · constructor
        · show (r.holders ++ [r.nextHolder c]).Pairwise _
          rw [List.pairwise_append]
          refine ⟨hr.increasing, List.pairwise_singleton _ _, ?_⟩
          intro h hh h' hh'
          rw [List.mem_singleton.mp hh']
          exact hr.below h hh
        · intro h hh
          rcases List.mem_append.mp hh with hh | hh
          · exact Nat.lt_succ_of_lt (hr.below h hh)
          · rw [List.mem_singleton.mp hh]
            exact Nat.lt_succ_self _
  | removeAllocationListener l =>
      have hsub :
          List.Sublist
            (r.after equals
              (.removeAllocationListener l)).holders
            r.holders := by
        unfold holders Registry.after
        cases r.listeners with
        | none => exact List.Sublist.refl _
        | some hs => exact List.eraseP_sublist
      exact
        ⟨hr.increasing.sublist hsub,
          fun h hh => hr.below h (hsub.subset hh)⟩

end Registry

variable {L C : Type}

def registryAfter
    (equals : L → L → Bool)
    (calls : List (Call L C)) : Registry L C :=
  calls.foldl (Registry.after equals) ⟨none, 0⟩

/- The listeners between two completed calls. -/
def listenersAfter
    (equals : L → L → Bool)
    (calls : List (Call L C)) :
    List (AllocationListenerHolder L C) :=
  (registryAfter equals calls).holders

theorem registryAfter_append
    (equals : L → L → Bool)
    (calls : List (Call L C))
    (c : Call L C) :
    registryAfter equals (calls ++ [c]) =
      (registryAfter equals calls).after equals c := by
  simp [registryAfter]

theorem registryAfter_numbered
    (equals : L → L → Bool)
    (calls : List (Call L C)) :
    (registryAfter equals calls).Numbered := by
  induction calls using List.reverseRecOn with
  | nil => exact ⟨List.Pairwise.nil, by simp [registryAfter,
      Registry.holders]⟩
  | append_singleton calls c ih =>
      rw [registryAfter_append]
      exact ih.after equals c

------------------------------------------------------------
-- What a notification should do
------------------------------------------------------------

/-
  A run of `notifyAll` has called the first `i` holders of
  its array.  In the end it has called all of them, in the
  order of their numbers, and they are the listeners between
  two completed calls.  It does not meet null.
-/
def Right
    (equals : L → L → Bool)
    (s : Session L C) : Notification L C → Prop
| .read => True
| .loop array i called =>
    ∃ content,
      s.arrays[array]? = some content ∧
        called.map some = content.take i
| .ended none called => called = []
| .ended (some array) called =>
    s.arrays[array]? = some (called.map some) ∧
      called.Pairwise (fun h₁ h₂ => h₁.number < h₂.number) ∧
        ∃ k, k ≤ s.completed.length ∧
          called =
            listenersAfter equals (s.completed.take k)
| .metNull _ _ _ => False

def AllRight
    (equals : L → L → Bool)
    (s : Session L C) : Prop :=
  ∀ n ∈ s.notifications, Right equals s n

/-
  The place in the published array where `add` has yet to
  store the holder.
-/
def Point.pending : Point L C → Option (Nat × Nat)
| .createHolder _ array size => some (array, size)
| .storeHolder _ array size _ => some (array, size)
| _ => none

/- The step does not read that place. -/
def Clear (s : Session L C) : Command L C → Prop
| .notify j =>
    ∀ array i called,
      s.notifications[j]? = some (.loop array i called) →
        s.point.pending ≠ some (array, i)
| _ => True

end Allocations

end MemoryAgent
