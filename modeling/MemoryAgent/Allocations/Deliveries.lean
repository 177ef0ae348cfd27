import Mathlib.Data.List.Basic
import MemoryAgent.Allocations.Interleavings
import MemoryAgent.Jvmti.Heap

/-
  What listeners are told of an allocation, and when the
  list of listeners was the one that a notification calls.

  A notification reads one array, and the array holds the
  listeners of a moment between the sample and the end of
  the notification.

  Key definitions include:
    * `Allocations.notifyListenerIfNeeded`
    * `Allocations.deliveries`
    * `Allocations.registrations`

  Main results:
    * `Allocations.deliveries_linearizable`
    * `Allocations.removed_not_called`
-/

------------------------------------------------------------
-- Deliveries
------------------------------------------------------------

namespace MemoryAgent

namespace Allocations

structure AllocationInfo (T O C : Type) where
  thread : T
  object : O
  objectClass : C
  size : jlong
deriving DecidableEq, Repr

section

variable {L C T O : Type}
variable (isAssignableFrom : C → C → Bool)

/- The calls of `onAllocation`, with their argument. -/
def notifyListener
    (holder : AllocationListenerHolder L C)
    (info : AllocationInfo T O C) :
    List (L × AllocationInfo T O C) :=
  [(holder.listener, info)]

/- The loop over the tracked classes, with its `break`. -/
def notifyForTracked
    (holder : AllocationListenerHolder L C)
    (info : AllocationInfo T O C) :
    List C → List (L × AllocationInfo T O C)
| [] => []
| clazz :: rest =>
    if isAssignableFrom clazz info.objectClass = true then
      notifyListener holder info
    else
      notifyForTracked holder info rest

def notifyListenerIfNeeded
    (info : AllocationInfo T O C)
    (holder : AllocationListenerHolder L C) :
    List (L × AllocationInfo T O C) :=
  if holder.trackedClasses.length = 0 then
    notifyListener holder info
  else
    notifyForTracked isAssignableFrom holder info
      holder.trackedClasses

/- What the holders that are called pass on. -/
def deliveries
    (info : AllocationInfo T O C)
    (called : List (AllocationListenerHolder L C)) :
    List (L × AllocationInfo T O C) :=
  called.flatMap
    (notifyListenerIfNeeded isAssignableFrom info)

/- The listener asks for allocations of the class. -/
def Interested
    (objectClass : C)
    (holder : AllocationListenerHolder L C) : Bool :=
  holder.trackedClasses.isEmpty ||
    holder.trackedClasses.any
      (fun clazz => isAssignableFrom clazz objectClass)

theorem notifyForTracked_eq
    (holder : AllocationListenerHolder L C)
    (info : AllocationInfo T O C)
    (classes : List C) :
    notifyForTracked isAssignableFrom holder info classes =
      if classes.any
          (fun clazz =>
            isAssignableFrom clazz info.objectClass) then
        [(holder.listener, info)]
      else
        [] := by
  induction classes with
  | nil => rfl
  | cons clazz rest ih =>
      rw [notifyForTracked, List.any_cons]
      by_cases hFits :
          isAssignableFrom clazz info.objectClass = true
      · rw [if_pos hFits, hFits, Bool.true_or, if_pos rfl]
        rfl
      · rw [if_neg hFits, ih, Bool.eq_false_of_not_eq_true
          hFits, Bool.false_or]

theorem notifyListenerIfNeeded_eq
    (info : AllocationInfo T O C)
    (holder : AllocationListenerHolder L C) :
    notifyListenerIfNeeded isAssignableFrom info holder =
      if Interested isAssignableFrom info.objectClass
          holder then
        [(holder.listener, info)]
      else
        [] := by
  unfold notifyListenerIfNeeded Interested
  cases hTracked : holder.trackedClasses with
  | nil => rfl
  | cons clazz rest =>
      rw [if_neg (by simp), notifyForTracked_eq]
      rfl

/- Each holder tells its listener once, or not at all. -/
theorem deliveries_eq
    (info : AllocationInfo T O C)
    (called : List (AllocationListenerHolder L C)) :
    deliveries isAssignableFrom info called =
      (called.filter
        (Interested isAssignableFrom info.objectClass)).map
        (fun holder => (holder.listener, info)) := by
  induction called with
  | nil => rfl
  | cons holder rest ih =>
      rw [deliveries, List.flatMap_cons, ← deliveries, ih,
        notifyListenerIfNeeded_eq, List.filter_cons]
      split
      · rfl
      · rfl

end

------------------------------------------------------------
-- Arrays Since a Moment
------------------------------------------------------------

open PartialSteps

variable {L C : Type}
variable {equals : L → L → Bool}
variable {s s' : Session L C}
variable {array since : Nat}

/-
  The array holds the listeners of a moment at which `since`
  calls or more were completed, or it will, once the call in
  progress has stored its holder.
-/
inductive HoldsSince
    (equals : L → L → Bool)
    (since : Nat)
    (s : Session L C)
    (array : Nat) : Prop
  | settled (k : Nat) :
      since ≤ k → k ≤ s.completed.length →
        s.arrays[array]? =
            some ((listenersAfter equals
              (s.completed.take k)).map some) →
          HoldsSince equals since s array
  | pending :
      since ≤ s.completed.length →
        s.point.pending =
            some (array,
              (listenersAfter equals s.completed).length) →
          HoldsSince equals since s array

/- The array that a notification finds in the field. -/
theorem Invariant.holdsSince
    (hInv : Invariant equals s)
    (hSince : since ≤ s.completed.length)
    (hField : s.listenerHolders = some array) :
    HoldsSince equals since s array := by
  rcases hInv.stands.field hField with hHolds | hPlace
  · refine .settled s.completed.length hSince
      (Nat.le_refl _) ?_
    rw [List.take_length]
    exact hHolds
  · exact .pending hSince hPlace

/- A step writes to its own array, or stores the holder. -/
theorem Stands.written
    {r : Registry L C}
    {p : Point L C}
    (hStands : Stands equals s r p)
    (hWritten : p.written = some array) :
    (∀ n ∈ s.notifications, n.array ≠ some array) ∨
      p.pending = some (array, r.holders.length) := by
  cases p with
  | copyAll c size temp =>
      cases hWritten
      exact Or.inl hStands.2.unread
  | copyBefore l index newSize temp =>
      cases hWritten
      exact Or.inl hStands.2.2.unread
  | copyAfter l index newSize temp =>
      cases hWritten
      exact Or.inl hStands.2.2.unread
  | storeHolder c written size holder =>
      cases hWritten
      rw [← hStands.1.size]
      exact Or.inr rfl
  | _ => cases hWritten

/- An array that a notification reads is not written to. -/
theorem advance_getElem?
    (hInv : Invariant equals s)
    (hStep : advance equals s = some s')
    {n : Notification L C}
    (hn : n ∈ s.notifications)
    (hArray : n.array = some array)
    (hClear :
      ∀ size, s.point.pending ≠ some (array, size)) :
    s'.arrays[array]? = s.arrays[array]? := by
  rcases (advanced_of_advance hStep).writes with
    hSame | ⟨content, hMore⟩ | ⟨written, content, hAt, hSet⟩
  · rw [hSame]
  · rw [hMore, List.getElem?_append_left
      (hInv.array_lt hn hArray)]
  · have hNe : written ≠ array := by
      intro hEq
      subst hEq
      rcases hInv.stands.written hAt with hUnread | hPlace
      · exact hUnread n hn hArray
      · exact hClear _ hPlace
    rw [hSet, List.getElem?_set_ne hNe]

/- The holder is stored in the array that was published. -/
theorem advance_pending
    (hInv : Invariant equals s)
    (hStep : advance equals s = some s')
    {size : Nat}
    (hPlace : s.point.pending = some (array, size)) :
    (s'.point.pending = some (array, size) ∧
        s'.completed = s.completed) ∨
      s'.arrays[array]? =
        some ((listenersAfter equals s'.completed).map
          some) := by
  have hBusy : s.point ≠ .idle := by
    intro hIdle
    rw [hIdle] at hPlace
    cases hPlace
  have hField := (hInv.stands.pending hPlace).1
  rcases advance_keeps hInv hBusy with ⟨s'', hEq, hInv'⟩
  rw [hStep] at hEq
  cases hEq
  cases hPoint : s.point with
  | createHolder c written length =>
      rw [hPoint] at hPlace
      simp only [advance, hPoint] at hStep
      cases hStep
      exact Or.inl ⟨hPlace, rfl⟩
  | storeHolder c written length holder =>
      rw [hPoint] at hPlace
      cases hPlace
      simp only [advance, hPoint, Option.bind_eq_bind,
        Option.bind_eq_some_iff] at hStep
      rcases hStep with ⟨content, _, hEq⟩
      split at hEq
      · cases hEq
        exact Or.inr ((hInv'.stands.field hField).resolve_right
          (fun hPending => by cases hPending))
      · cases hEq
  | _ =>
      rw [hPoint] at hPlace
      cases hPlace

/- Steps of the notifications, and the beginning of calls. -/
theorem HoldsSince.same
    (hHolds : HoldsSince equals since s array)
    (hArrays : s'.arrays = s.arrays)
    (hCompleted : s'.completed = s.completed)
    (hPending : s'.point.pending = s.point.pending) :
    HoldsSince equals since s' array := by
  cases hHolds with
  | settled k hSince hk hContent =>
      refine .settled k hSince (hCompleted ▸ hk) ?_
      rw [hArrays, hCompleted]
      exact hContent
  | pending hSince hPlace =>
      refine .pending (hCompleted ▸ hSince) ?_
      rw [hPending, hCompleted]
      exact hPlace

theorem HoldsSince.advance
    (hInv : Invariant equals s)
    (hHolds : HoldsSince equals since s array)
    (hStep : advance equals s = some s')
    {n : Notification L C}
    (hn : n ∈ s.notifications)
    (hArray : n.array = some array) :
    HoldsSince equals since s' array := by
  have hPrefix := (advanced_of_advance hStep).completed
  cases hHolds with
  | settled k hSince hk hContent =>
      have hClear (size : Nat) :
          s.point.pending ≠ some (array, size) := by
        intro hPlace
        have hHalf := (hInv.stands.pending hPlace).2.1
        rw [hContent] at hHalf
        exact map_some_ne _ _ (Option.some.inj hHalf)
      have hLe := Nat.le_trans hk hPrefix.length_le
      refine .settled k hSince hLe ?_
      rw [advance_getElem? hInv hStep hn hArray hClear,
        hContent, List.prefix_iff_eq_take.mp hPrefix,
        List.take_take, Nat.min_eq_left hk]
  | pending hSince hPlace =>
      have hLe := Nat.le_trans hSince hPrefix.length_le
      rcases advance_pending hInv hStep hPlace with
        ⟨hStill, hSame⟩ | hStored
      · refine .pending hLe ?_
        rw [hStill, hSame]
      · refine .settled s'.completed.length hLe
          (Nat.le_refl _) ?_
        rw [List.take_length]
        exact hStored

------------------------------------------------------------
-- One Notification
------------------------------------------------------------

/-
  The notification `j` reads an array of a moment after the
  calls `earlier`.
-/
structure Tracked
    (equals : L → L → Bool)
    (earlier : List (Call L C))
    (j : Nat)
    (s : Session L C) : Prop where
  later : earlier <+: s.completed
  reads :
    ∃ n, s.notifications[j]? = some n ∧
      ∀ array, n.array = some array →
        HoldsSince equals earlier.length s array

theorem notify_array
    {n n' : Notification L C}
    (hStep : notify s n = some n') :
    n'.array = none ∨ n'.array = s.listenerHolders ∨
      n'.array = n.array := by
  cases n with
  | read =>
      simp only [notify] at hStep
      split at hStep
      · rename_i hField
        cases hStep
        exact Or.inr (Or.inl hField.symm)
      · cases hStep
        exact Or.inl rfl
  | loop array i called =>
      simp only [notify, Option.bind_eq_bind,
        Option.bind_eq_some_iff] at hStep
      rcases hStep with ⟨content, _, hNext⟩
      split at hNext <;>
        · cases hNext
          exact Or.inr (Or.inr rfl)
  | ended array called => cases hStep
  | metNull array i called => cases hStep

variable {earlier : List (Call L C)}
variable {j : Nat}

theorem Tracked.execute
    (hInv : Invariant equals s)
    (hTracked : Tracked equals earlier j s)
    {command : Command L C}
    (hStep : execute equals s command = some s') :
    Tracked equals earlier j s' := by
  rcases hTracked with ⟨hSince, n, hn, hReads⟩
  have hMem : n ∈ s.notifications := List.mem_of_getElem? hn
  cases command with
  | call c =>
      simp only [Allocations.execute] at hStep
      split at hStep
      · rename_i hPoint
        cases hStep
        refine ⟨hSince, n, hn, ?_⟩
        intro array hArray
        exact (hReads array hArray).same rfl rfl
          (by rw [hPoint]; rfl)
      · cases hStep
  | advance =>
      have hPrefix := (advanced_of_advance hStep).completed
      refine ⟨hSince.trans hPrefix, n, ?_, ?_⟩
      · rw [(advanced_of_advance hStep).notifications]
        exact hn
      · intro array hArray
        exact (hReads array hArray).advance hInv hStep hMem
          hArray
  | sample =>
      cases hStep
      refine ⟨hSince, n, ?_, ?_⟩
      · rw [List.getElem?_append_left
          (List.getElem?_eq_some_iff.mp hn).1]
        exact hn
      · intro array hArray
        exact (hReads array hArray).same rfl rfl rfl
  | notify i =>
      simp only [Allocations.execute, Option.bind_eq_bind,
        Option.bind_eq_some_iff] at hStep
      rcases hStep with ⟨m, hm, m', hNotify, hEq⟩
      cases hEq
      by_cases hOther : i = j
      · subst hOther
        rw [hn] at hm
        cases hm
        refine ⟨hSince, m', ?_, ?_⟩
        · rw [List.getElem?_set_self
            (List.getElem?_eq_some_iff.mp hn).1]
        · intro array hArray
          have hHolds :
              HoldsSince equals earlier.length s array := by
            rcases notify_array hNotify with
              hNone | hField | hKept
            · rw [hNone] at hArray
              cases hArray
            · rw [hField] at hArray
              exact hInv.holdsSince hSince.length_le hArray
            · rw [hKept] at hArray
              exact hReads array hArray
          exact hHolds.same rfl rfl rfl
      · refine ⟨hSince, n, ?_, ?_⟩
        · rw [List.getElem?_set_ne hOther]
          exact hn
        · intro array hArray
          exact (hReads array hArray).same rfl rfl rfl

/- A tracked notification that has ended. -/
theorem Tracked.called
    (hInv : Invariant equals s)
    (hTracked : Tracked equals earlier j s)
    {called : List (AllocationListenerHolder L C)}
    (hEnded :
      s.notifications[j]? = some (.ended (some array) called)) :
    ∃ k, earlier.length ≤ k ∧ k ≤ s.completed.length ∧
      called = listenersAfter equals (s.completed.take k) := by
  rcases hTracked.reads with ⟨n, hn, hReads⟩
  rw [hEnded] at hn
  cases hn
  have hHolds : s.arrays[array]? = some (called.map some) :=
    (hInv.follows _ (List.mem_of_getElem? hEnded)).1
  rcases hReads array rfl with
    ⟨k, hSince, hk, hContent⟩ | ⟨_, hPlace⟩
  · refine ⟨k, hSince, hk, ?_⟩
    rw [hHolds] at hContent
    exact List.map_injective_iff.mpr
      (Option.some_injective _) (Option.some.inj hContent)
  · have hHalf := (hInv.stands.pending hPlace).2.1
    rw [hHolds] at hHalf
    exact absurd (Option.some.inj hHalf) (map_some_ne _ _)

/- The moment is in the time of the notification. -/
theorem exists_moment
    {before after : List (Command L C)}
    {s₀ : Session L C}
    {called : List (AllocationListenerHolder L C)}
    (hBefore :
      before.foldlM (execute equals) (Session.initial L C) =
        some s₀)
    (hAfter :
      (.sample :: after).foldlM (execute equals) s₀ = some s)
    (hClear :
      EveryStep (execute equals) Clear
        (Session.initial L C) (before ++ .sample :: after))
    (hEnded :
      s.notifications[s₀.notifications.length]? =
        some (.ended (some array) called)) :
    s₀.completed <+: s.completed ∧
      ∃ k, s₀.completed.length ≤ k ∧
        k ≤ s.completed.length ∧
          called =
            listenersAfter equals (s.completed.take k) := by
  rcases hClear.append hBefore with ⟨hFirst, _, hSecond⟩
  have hInv₀ : Invariant equals s₀ :=
    (throughout_of_everyStep execute_keeps
      (Invariant.initial equals) hFirst).last hBefore
  simp only [List.foldlM_cons, Option.bind_eq_bind,
    Option.bind_eq_some_iff] at hAfter
  rcases hAfter with ⟨s₁, hSample, hRest⟩
  have hInv₁ :=
    execute_keeps s₀ .sample s₁ hInv₀ trivial hSample
  have hLater := hSecond s₁ hSample
  have hTracked :
      Tracked equals s₀.completed s₀.notifications.length
        s₁ := by
    cases hSample
    refine ⟨List.prefix_refl _, .read, ?_, ?_⟩
    · rw [List.getElem?_concat_length]
    · intro array hArray
      cases hArray
  let Kept (s : Session L C) : Prop :=
    Invariant equals s ∧
      Tracked equals s₀.completed s₀.notifications.length s
  have hKept (s : Session L C) (c : Command L C)
      (s' : Session L C) (hs : Kept s) (hQ : Clear s c)
      (hStep : execute equals s c = some s') : Kept s' :=
    ⟨execute_keeps s c s' hs.1 hQ hStep,
      hs.2.execute hs.1 hStep⟩
  have hLast : Kept s :=
    (throughout_of_everyStep hKept ⟨hInv₁, hTracked⟩
      hLater).last hRest
  exact ⟨hLast.2.later, hLast.2.called hLast.1 hEnded⟩

/-
  What a notification tells the listeners is what the
  listeners of one moment ask for, in the order of their
  registration.  The moment lies between the sample and the
  end of the notification.
-/
theorem deliveries_linearizable
    {L C T O : Type}
    (equals : L → L → Bool)
    (isAssignableFrom : C → C → Bool)
    (info : AllocationInfo T O C)
    (before after : List (Command L C))
    (s₀ s : Session L C)
    (array : Nat)
    (called : List (AllocationListenerHolder L C))
    (hBefore :
      before.foldlM (execute equals) (Session.initial L C) =
        some s₀)
    (hAfter :
      (.sample :: after).foldlM (execute equals) s₀ = some s)
    (hClear :
      EveryStep (execute equals) Clear
        (Session.initial L C) (before ++ .sample :: after))
    (hEnded :
      s.notifications[s₀.notifications.length]? =
        some (.ended (some array) called)) :
    ∃ k, s₀.completed.length ≤ k ∧
      k ≤ s.completed.length ∧
        deliveries isAssignableFrom info called =
          ((listenersAfter equals
              (s.completed.take k)).filter
            (Interested isAssignableFrom
              info.objectClass)).map
            (fun holder => (holder.listener, info)) := by
  rcases (exists_moment hBefore hAfter hClear hEnded).2 with
    ⟨k, hSince, hk, hCalled⟩
  refine ⟨k, hSince, hk, ?_⟩
  rw [deliveries_eq, hCalled]

/- The place that a notification reads next. -/
def Notification.place :
    Notification L C → Option (Nat × Nat)
| .loop array i _ => some (array, i)
| _ => none

theorem clear_notify_iff
    (s : Session L C)
    (j : Nat) :
    Clear s (.notify j) ↔
      ∀ place,
        (s.notifications[j]?.bind Notification.place) =
            some place →
          s.point.pending ≠ some place := by
  constructor
  · intro hClear place hPlace
    rcases Option.bind_eq_some_iff.mp hPlace with ⟨n, hn, hAt⟩
    cases n with
    | loop array i called =>
        cases hAt
        exact hClear array i called hn
    | _ => cases hAt
  · intro hClear array i called hn
    exact hClear (array, i) (by rw [hn]; rfl)

instance (s : Session L C) :
    (command : Command L C) → Decidable (Clear s command)
| .call _ => isTrue trivial
| .advance => isTrue trivial
| .sample => isTrue trivial
| .notify j =>
    match hPlace : s.notifications[j]?.bind
        Notification.place with
    | none =>
        isTrue ((clear_notify_iff s j).mpr
          (by rw [hPlace]; intro _ h; cases h))
    | some place =>
        decidable_of_iff (s.point.pending ≠ some place)
          (by
            rw [clear_notify_iff, hPlace]
            exact ⟨fun h _ hEq => Option.some.inj hEq ▸ h,
              fun h => h place rfl⟩)

/-
  A listener of class 1 is there, and one of all classes is
  being added while an allocation of class 1 is sampled.  The
  array is read before the new one is published.
-/
def beforeSample : List (Command Nat Nat) :=
  .call (.addAllocationListener ⟨7, [1], true⟩) ::
    List.replicate 8 .advance ++
      [.call (.addAllocationListener ⟨8, [], true⟩)]

def afterSample : List (Command Nat Nat) :=
  .notify 0 :: List.replicate 7 .advance ++
    [.notify 0, .notify 0]

def sampledInfo : AllocationInfo Unit Unit Nat :=
  ⟨(), (), 1, 16⟩

theorem deliveries_linearizable_two :
    ∃ s₀ s called,
      beforeSample.foldlM (execute (· == ·))
          (Session.initial Nat Nat) = some s₀ ∧
      (.sample :: afterSample).foldlM (execute (· == ·)) s₀ =
        some s ∧
      called.length = 1 ∧
      ∃ k, s₀.completed.length ≤ k ∧
        k ≤ s.completed.length ∧
          deliveries (· == ·) sampledInfo called =
            ((listenersAfter (· == ·)
                (s.completed.take k)).filter
              (Interested (· == ·) 1)).map
              (fun holder => (holder.listener, sampledInfo)) := by
  refine ⟨_, _, [⟨0, 7, [1]⟩], rfl, rfl, rfl, ?_⟩
  exact deliveries_linearizable (· == ·) (· == ·)
    sampledInfo beforeSample afterSample _ _ 1 _ rfl rfl
    (by decide) rfl

------------------------------------------------------------
-- Removed Listeners
------------------------------------------------------------

/-
  What one call does for a listener: whether `listeners` is
  known to be there, and how often the listener is in it.
-/
def register
    (equals : L → L → Bool)
    (l : L)
    (r : Bool × Nat) : Call L C → Bool × Nat
| .addAllocationListener c =>
    if !r.1 && !c.initialized then
      (true, r.2)
    else if equals c.allocationListener l then
      (true, r.2 + 1)
    else
      (true, r.2)
| .removeAllocationListener l' =>
    if equals l' l then (r.1, r.2 - 1) else r

/- How often the listener is registered after the calls. -/
def registrations
    (equals : L → L → Bool)
    (l : L)
    (calls : List (Call L C)) : Nat :=
  (calls.foldl (register equals l) (false, 0)).2

theorem countP_eraseP
    (hEquals : Equivalence (fun a b => equals a b = true))
    (l l' : L)
    (hs : List (AllocationListenerHolder L C)) :
    (hs.eraseP (fun h => equals h.listener l')).countP
        (fun h => equals h.listener l) =
      if equals l' l then
        hs.countP (fun h => equals h.listener l) - 1
      else
        hs.countP (fun h => equals h.listener l) := by
  induction hs with
  | nil => simp
  | cons h hs ih =>
      by_cases hFirst : equals h.listener l' = true
      · have hSame :
            equals h.listener l = equals l' l := by
          rw [Bool.eq_iff_iff]
          exact ⟨hEquals.trans (hEquals.symm hFirst),
            hEquals.trans hFirst⟩
        rw [List.eraseP_cons, cond_eq_ite, if_pos hFirst,
          List.countP_cons, hSame]
        split
        · rfl
        · rfl
      · rw [List.eraseP_cons, cond_eq_ite, if_neg hFirst,
          List.countP_cons, List.countP_cons, ih]
        split
        · rename_i hOther
          have hNot : ¬ equals h.listener l = true := by
            intro hEq
            exact hFirst (hEquals.trans hEq
              (hEquals.symm hOther))
          simp [hNot]
        · rfl

theorem register_after
    (hEquals : Equivalence (fun a b => equals a b = true))
    (l : L)
    (r : Registry L C)
    (c : Call L C) :
    register equals l
        (r.listeners.isSome,
          r.holders.countP (fun h => equals h.listener l)) c =
      ((r.after equals c).listeners.isSome,
        (r.after equals c).holders.countP
          (fun h => equals h.listener l)) := by
  rcases r with ⟨listeners, count⟩
  cases c with
  | addAllocationListener c =>
      cases listeners with
      | none =>
          by_cases hInit : c.initialized = true
          · simp [register, Registry.after, Registry.holders,
              Registry.nextHolder, hInit, List.countP_cons]
            split <;> rfl
          · simp [register, Registry.after, Registry.holders,
              hInit]
      | some hs =>
          simp [register, Registry.after, Registry.holders,
            Registry.nextHolder, List.countP_cons]
          split <;> rfl
  | removeAllocationListener l' =>
      cases listeners with
      | none =>
          simp [register, Registry.after, Registry.holders]
      | some hs =>
          simp [register, Registry.after, Registry.holders,
            countP_eraseP hEquals]
          split <;> rfl

theorem register_registry
    (hEquals : Equivalence (fun a b => equals a b = true))
    (l : L)
    (calls : List (Call L C)) :
    calls.foldl (register equals l) (false, 0) =
      ((registryAfter equals calls).listeners.isSome,
        (listenersAfter equals calls).countP
          (fun h => equals h.listener l)) := by
  induction calls using List.reverseRecOn with
  | nil => rfl
  | append_singleton calls c ih =>
      rw [List.foldl_append, ih, listenersAfter,
        listenersAfter, registryAfter_append]
      exact register_after hEquals l _ c

/- Removals beyond the registrations change nothing. -/
theorem listenersAfter_countP
    (hEquals : Equivalence (fun a b => equals a b = true))
    (l : L)
    (calls : List (Call L C)) :
    (listenersAfter equals calls).countP
        (fun h => equals h.listener l) =
      registrations equals l calls := by
  rw [registrations, register_registry hEquals]

theorem registrations_append
    (equals : L → L → Bool)
    (l : L)
    (calls more : List (Call L C))
    (hNone : registrations equals l calls = 0)
    (hMore :
      ∀ c, .addAllocationListener c ∈ more →
        equals c.allocationListener l = false) :
    registrations equals l (calls ++ more) = 0 := by
  induction more using List.reverseRecOn with
  | nil =>
      rw [List.append_nil]
      exact hNone
  | append_singleton more c ih =>
      have hBefore := ih (fun c hc =>
        hMore c (List.mem_append_left _ hc))
      rw [registrations] at hBefore
      rw [← List.append_assoc, registrations,
        List.foldl_append, List.foldl_cons, List.foldl_nil]
      cases c with
      | addAllocationListener c =>
          have hOther := hMore c
            (List.mem_append_right _ (List.mem_singleton_self _))
          rw [register, hOther]
          split
          · exact hBefore
          · exact hBefore
      | removeAllocationListener l' =>
          rw [register]
          split
          · rw [hBefore]
          · exact hBefore

/-
  A listener that has been removed as often as it was added
  when an allocation is sampled, and that no call completed
  by the end of the notification adds again, is not told of
  the allocation.
-/
theorem removed_not_called
    {L C T O : Type}
    (equals : L → L → Bool)
    (hEquals : Equivalence (fun a b => equals a b = true))
    (isAssignableFrom : C → C → Bool)
    (info : AllocationInfo T O C)
    (before after : List (Command L C))
    (s₀ s : Session L C)
    (array : Nat)
    (called : List (AllocationListenerHolder L C))
    (l : L)
    (hBefore :
      before.foldlM (execute equals) (Session.initial L C) =
        some s₀)
    (hAfter :
      (.sample :: after).foldlM (execute equals) s₀ = some s)
    (hClear :
      EveryStep (execute equals) Clear
        (Session.initial L C) (before ++ .sample :: after))
    (hEnded :
      s.notifications[s₀.notifications.length]? =
        some (.ended (some array) called))
    (hRemoved : registrations equals l s₀.completed = 0)
    (hNotAgain :
      ∀ c, .addAllocationListener c ∈
          s.completed.drop s₀.completed.length →
        equals c.allocationListener l = false) :
    ∀ d ∈ deliveries isAssignableFrom info called,
      equals d.1 l = false := by
  rcases exists_moment hBefore hAfter hClear hEnded with
    ⟨hPrefix, k, hSince, hk, hCalled⟩
  rcases hPrefix with ⟨more, hMore⟩
  rw [← hMore, List.drop_left] at hNotAgain
  have hTake :
      s.completed.take k =
        s₀.completed ++
          more.take (k - s₀.completed.length) := by
    rw [← hMore, List.take_append,
      List.take_of_length_le hSince]
  have hCount :
      called.countP (fun h => equals h.listener l) = 0 := by
    rw [hCalled, listenersAfter_countP hEquals, hTake]
    exact registrations_append equals l _ _ hRemoved
      (fun c hc => hNotAgain c (List.mem_of_mem_take hc))
  intro d hd
  rw [deliveries_eq] at hd
  rcases List.mem_map.mp hd with ⟨h, hMem, rfl⟩
  exact Bool.eq_false_of_not_eq_true
    (List.countP_eq_zero.mp hCount h
      (List.mem_filter.mp hMem).1)

/- Of two listeners the first one is removed before. -/
def removedBefore : List (Command Nat Nat) :=
  .call (.addAllocationListener ⟨7, [1], true⟩) ::
    List.replicate 8 .advance ++
      .call (.addAllocationListener ⟨9, [1], true⟩) ::
        List.replicate 7 .advance ++
          .call (.removeAllocationListener 7) ::
            List.replicate 6 .advance

theorem beq_equivalence :
    Equivalence (fun a b : Nat => (a == b) = true) :=
  ⟨fun _ => BEq.rfl, BEq.symm, BEq.trans⟩

theorem removed_not_called_seven :
    ∃ s₀ s,
      removedBefore.foldlM (execute (· == ·))
          (Session.initial Nat Nat) = some s₀ ∧
      [Command.sample, .notify 0, .notify 0, .notify 0].foldlM
          (execute (· == ·)) s₀ = some s ∧
      deliveries (· == ·) sampledInfo [⟨1, 9, [1]⟩] =
        [(9, sampledInfo)] ∧
      ∀ d ∈ deliveries (· == ·) sampledInfo [⟨1, 9, [1]⟩],
        (d.1 == 7) = false := by
  refine ⟨_, _, rfl, rfl, rfl, ?_⟩
  exact removed_not_called (· == ·) beq_equivalence (· == ·)
    sampledInfo removedBefore
    [.notify 0, .notify 0, .notify 0] _ _ 3 _ 7 rfl rfl
    (by decide) rfl rfl (by intro c hc; cases hc)

end Allocations

end MemoryAgent
