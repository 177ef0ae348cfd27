import Mathlib.Data.List.Basic
import MemoryAgent.Allocations.Notifications

/-
  What holds between any two steps of the calls and the
  notifications.

  A call changes an array that no notification reads, except
  that `add` stores the new holder in the published array.

  Key definitions include:
    * `Allocations.Lists`
    * `Allocations.Own`
    * `Allocations.Stands`
    * `Allocations.Follows`
    * `Allocations.Invariant`

  Main results:
    * `Allocations.Stands.field`
    * `Allocations.Follows.keep`
    * `Allocations.Follows.store`
-/

------------------------------------------------------------
-- Invariants
------------------------------------------------------------

namespace MemoryAgent

namespace Allocations

variable {L C : Type}

def Notification.array : Notification L C → Option Nat
| .read => none
| .loop array _ _ => some array
| .ended array _ => array
| .metNull array _ _ => some array

/- The published array lists `hs`. -/
def Lists
    (s : Session L C)
    (hs : List (AllocationListenerHolder L C)) : Prop :=
  ∃ array,
    s.listenerHolders = some array ∧
      s.arrays[array]? = some (hs.map some)

/- Only the call in progress knows the array `temp`. -/
structure Own
    (s : Session L C)
    (temp : Nat)
    (content : Holders L C) : Prop where
  holds : s.arrays[temp]? = some content
  field : s.listenerHolders ≠ some temp
  unread : ∀ n ∈ s.notifications, n.array ≠ some temp

/- Between two calls. -/
structure Settled
    (s : Session L C)
    (r : Registry L C) : Prop where
  created : s.created = r.count
  listeners :
    (s.listenerHolders = none ∧ r.listeners = none) ∨
      (Lists s r.holders ∧ r.listeners = some r.holders)

/- `add` is in progress and has not published its array. -/
structure Adding
    (equals : L → L → Bool)
    (s : Session L C)
    (r : Registry L C)
    (c : Addition L C)
    (size : Nat) : Prop where
  created : s.created = r.count
  lists : Lists s r.holders
  size : size = r.holders.length
  after :
    r.after equals (.addAllocationListener c) =
      ⟨some (r.holders ++ [r.nextHolder c]), r.count + 1⟩

/- The published array has no holder at its last place. -/
structure HalfStored
    (equals : L → L → Bool)
    (s : Session L C)
    (r : Registry L C)
    (c : Addition L C)
    (array size : Nat) : Prop where
  field : s.listenerHolders = some array
  holds :
    s.arrays[array]? = some (r.holders.map some ++ [none])
  size : size = r.holders.length
  after :
    r.after equals (.addAllocationListener c) =
      ⟨some (r.holders ++ [r.nextHolder c]), r.count + 1⟩

structure Removing
    (s : Session L C)
    (r : Registry L C) : Prop where
  created : s.created = r.count
  lists : Lists s r.holders
  listeners : r.listeners = some r.holders

/- The listener was found at `index`. -/
structure Removing.At
    (equals : L → L → Bool)
    (r : Registry L C)
    (l : L)
    (index newSize : Nat) : Prop where
  size : r.holders.length = newSize + 1
  inRange : index ≤ newSize
  erased :
    r.holders.eraseP (fun h => equals h.listener l) =
      r.holders.take index ++ r.holders.drop (index + 1)

/-
  What the call in progress has done, when the calls
  completed before it leave the registry `r`.
-/
def Stands
    (equals : L → L → Bool)
    (s : Session L C)
    (r : Registry L C) : Point L C → Prop
| .idle => Settled s r
| .enter _ => Settled s r
| .initArrayOfListeners _ =>
    s.created = r.count ∧ Lists s r.holders ∧
      r.listeners = none
| .readSize c => Adding equals s r c r.holders.length
| .allocateLonger c size => Adding equals s r c size
| .copyAll c size temp =>
    Adding equals s r c size ∧
      Own s temp (List.replicate (size + 1) none)
| .publishLonger c size temp =>
    Adding equals s r c size ∧
      Own s temp (r.holders.map some ++ [none])
| .createHolder c array size =>
    HalfStored equals s r c array size ∧
      s.created = r.count
| .storeHolder c array size holder =>
    HalfStored equals s r c array size ∧
      s.created = r.count + 1 ∧ holder = r.nextHolder c
| .find _ => Removing s r
| .allocateShorter l index =>
    Removing s r ∧
      findListener equals l (r.holders.map some) 0 =
        some index
| .copyBefore l index newSize temp =>
    Removing s r ∧ Removing.At equals r l index newSize ∧
      Own s temp (List.replicate newSize none)
| .copyAfter l index newSize temp =>
    Removing s r ∧ Removing.At equals r l index newSize ∧
      Own s temp
        ((r.holders.take index).map some ++
          List.replicate (newSize - index) none)
| .publishShorter l temp =>
    Removing s r ∧
      Own s temp
        ((r.holders.eraseP
          (fun h => equals h.listener l)).map some)

/- The listeners of some state between two calls. -/
def Served
    (equals : L → L → Bool)
    (s : Session L C)
    (hs : List (AllocationListenerHolder L C)) : Prop :=
  ∃ k, k ≤ s.completed.length ∧
    hs = listenersAfter equals (s.completed.take k)

/-
  The array lists `hs`, or the notification is before the
  place after them where `add` has yet to store a holder.
-/
def Reads
    (equals : L → L → Bool)
    (s : Session L C)
    (array i : Nat)
    (hs : List (AllocationListenerHolder L C)) : Prop :=
  (s.arrays[array]? = some (hs.map some) ∧
      Served equals s hs) ∨
    (s.point.pending = some (array, hs.length) ∧
      i ≤ hs.length ∧ hs = listenersAfter equals s.completed)

/- How far a notification has come. -/
def Follows
    (equals : L → L → Bool)
    (s : Session L C) : Notification L C → Prop
| .read => True
| .loop array i called =>
    ∃ hs, Reads equals s array i hs ∧ called = hs.take i
| .ended none called => called = []
| .ended (some array) called =>
    s.arrays[array]? = some (called.map some) ∧
      Served equals s called
| .metNull _ _ _ => False

/-
  The notification reads the published array, or the same as
  another one.
-/
def Shares
    (s : Session L C)
    (n : Notification L C) : Prop :=
  n.array = none ∨ n.array = s.listenerHolders ∨
    ∃ n' ∈ s.notifications, n.array = n'.array

structure Invariant
    (equals : L → L → Bool)
    (s : Session L C) : Prop where
  stands :
    Stands equals s (registryAfter equals s.completed) s.point
  follows : ∀ n ∈ s.notifications, Follows equals s n

------------------------------------------------------------
-- Listeners and their places
------------------------------------------------------------

theorem Registry.after_add
    (equals : L → L → Bool)
    {r : Registry L C}
    {c : Addition L C}
    (h : r.listeners = none → c.initialized = true) :
    r.after equals (.addAllocationListener c) =
      ⟨some (r.holders ++ [r.nextHolder c]), r.count + 1⟩ := by
  simp only [Registry.after]
  split
  · rename_i hNone
    simp only [Bool.and_eq_true, Option.isNone_iff_eq_none,
      Bool.not_eq_true'] at hNone
    rw [h hNone.1] at hNone
    cases hNone.2
  · rfl

theorem findListener_map
    (equals : L → L → Bool)
    (l : L)
    (hs : List (AllocationListenerHolder L C))
    (i : Nat) :
    (findListener equals l (hs.map some) i = some (-1) ∧
        hs.eraseP (fun h => equals h.listener l) = hs) ∨
      ∃ k, k < hs.length ∧
        findListener equals l (hs.map some) i =
          some ((i + k : Nat) : Int) ∧
        hs.eraseP (fun h => equals h.listener l) =
          hs.take k ++ hs.drop (k + 1) := by
  induction hs generalizing i with
  | nil => exact Or.inl ⟨rfl, rfl⟩
  | cons h hs ih =>
      simp only [List.map_cons, findListener, List.eraseP_cons]
      by_cases hEquals : equals h.listener l = true
      · refine Or.inr ⟨0, Nat.zero_lt_succ _, ?_, ?_⟩
        · simp [hEquals]
        · simp [hEquals]
      · simp only [hEquals]
        rcases ih (i + 1) with ⟨hFind, hErase⟩ | ⟨k, hk, hFind, hErase⟩
        · refine Or.inl ⟨by simpa using hFind, ?_⟩
          simp [hErase]
        · refine Or.inr ⟨k + 1, Nat.succ_lt_succ hk, ?_, ?_⟩
          · simp only [Bool.false_eq_true, if_false, hFind]
            congr 2
            omega
          · simp [hErase]

theorem arraycopy_all
    (hs : List (AllocationListenerHolder L C)) :
    arraycopy (hs.map some) 0
        (List.replicate (hs.length + 1) none) 0 hs.length =
      some (hs.map some ++ [none]) := by
  have hFits :
      0 + hs.length ≤ (hs.map some).length ∧
        0 + hs.length ≤
          (List.replicate (hs.length + 1)
            (none : Option (AllocationListenerHolder L C))).length := by
    simp only [List.length_map, List.length_replicate]
    omega
  unfold arraycopy
  rw [if_pos hFits]
  simp [List.take_of_length_le]

theorem arraycopy_before
    {hs : List (AllocationListenerHolder L C)}
    {index newSize : Nat}
    (hSize : hs.length = newSize + 1)
    (hIndex : index ≤ newSize) :
    arraycopy (hs.map some) 0
        (List.replicate newSize none) 0 index =
      some ((hs.take index).map some ++
        List.replicate (newSize - index) none) := by
  have hFits :
      0 + index ≤ (hs.map some).length ∧
        0 + index ≤
          (List.replicate newSize
            (none : Option (AllocationListenerHolder L C))).length := by
    simp only [List.length_map, List.length_replicate]
    omega
  unfold arraycopy
  rw [if_pos hFits]
  simp [List.map_take]

theorem arraycopy_after
    {hs : List (AllocationListenerHolder L C)}
    {index newSize : Nat}
    (hSize : hs.length = newSize + 1)
    (hIndex : index ≤ newSize) :
    arraycopy (hs.map some) (index + 1)
        ((hs.take index).map some ++
          List.replicate (newSize - index) none)
        index (newSize - index) =
      some ((hs.take index ++ hs.drop (index + 1)).map some) := by
  have hTake : ((hs.take index).map some).length = index := by
    simp only [List.length_map, List.length_take]
    omega
  have hRest :
      ((hs.map some).drop (index + 1)).take (newSize - index) =
        (hs.drop (index + 1)).map some := by
    rw [← List.map_drop, List.take_of_length_le]
    simp only [List.length_map, List.length_drop]
    omega
  have hLength :
      ((hs.take index).map some ++
        List.replicate (newSize - index)
          (none : Option (AllocationListenerHolder L C))).length =
        index + (newSize - index) := by
    rw [List.length_append, hTake, List.length_replicate]
  have hFits :
      index + 1 + (newSize - index) ≤ (hs.map some).length := by
    rw [List.length_map]
    omega
  unfold arraycopy
  rw [if_pos ⟨hFits, Nat.le_of_eq hLength.symm⟩,
    List.take_left' hTake, hRest,
    List.drop_eq_nil_of_le (Nat.le_of_eq hLength),
    List.append_nil, List.map_append]

/- An array with a null element lists no holders. -/
theorem map_some_ne
    (hs hs' : List (AllocationListenerHolder L C)) :
    hs.map some ≠ hs'.map some ++ [none] := by
  intro hEq
  have hMem :
      none ∈ hs.map
        (some : AllocationListenerHolder L C → Option _) := by
    rw [hEq]
    simp
  simp at hMem

------------------------------------------------------------
-- Frames
------------------------------------------------------------

variable {equals : L → L → Bool}
variable {s : Session L C}
variable {r : Registry L C}

theorem Lists.allocate
    {hs : List (AllocationListenerHolder L C)}
    (h : Lists s hs)
    (length : Nat) :
    Lists (s.allocate length) hs := by
  rcases h with ⟨array, hField, hHolds⟩
  refine ⟨array, hField, ?_⟩
  change (s.arrays ++ [_])[array]? = _
  rw [List.getElem?_append_left (List.getElem?_eq_some_iff.mp
    hHolds).1]
  exact hHolds

theorem Lists.setArray
    {hs : List (AllocationListenerHolder L C)}
    {temp : Nat}
    (h : Lists s hs)
    (hField : s.listenerHolders ≠ some temp)
    (content : Holders L C) :
    Lists (s.setArray temp content) hs := by
  rcases h with ⟨array, hArray, hHolds⟩
  have hNe : temp ≠ array := by
    intro hEq
    exact hField (hEq ▸ hArray)
  refine ⟨array, hArray, ?_⟩
  change (s.arrays.set temp content)[array]? = _
  rw [List.getElem?_set_ne hNe]
  exact hHolds

theorem Lists.content
    {hs : List (AllocationListenerHolder L C)}
    (h : Lists s hs) :
    s.content = some (hs.map some) := by
  rcases h with ⟨array, hField, hHolds⟩
  simp [Session.content, hField, hHolds]

theorem Own.setArray
    {temp : Nat}
    {content : Holders L C}
    (h : Own s temp content)
    (content' : Holders L C)
    (p : Point L C) :
    Own { s.setArray temp content' with point := p } temp
      content' := by
  refine ⟨?_, h.field, h.unread⟩
  change (s.arrays.set temp content')[temp]? = _
  have hRange := (List.getElem?_eq_some_iff.mp h.holds).1
  simp [hRange]

/- A notification reads no array that is yet to come. -/
theorem Own.allocate
    {hs : List (AllocationListenerHolder L C)}
    (hLists : Lists s hs)
    (hRead :
      ∀ n ∈ s.notifications, ∀ array,
        n.array = some array → array < s.arrays.length)
    (length : Nat)
    (p : Point L C) :
    Own { s.allocate length with point := p } s.arrays.length
      (List.replicate length none) := by
  refine ⟨?_, ?_, ?_⟩
  · change (s.arrays ++ [_])[s.arrays.length]? = _
    simp
  · rcases hLists with ⟨array, hField, hHolds⟩
    intro hEq
    change s.listenerHolders = _ at hEq
    rw [hField] at hEq
    cases hEq
    exact Nat.lt_irrefl _ (List.getElem?_eq_some_iff.mp hHolds).1
  · intro n hn hEq
    exact Nat.lt_irrefl _ (hRead n hn _ hEq)

theorem Removing.setArray
    {temp : Nat}
    {before : Holders L C}
    (h : Removing s r)
    (hOwn : Own s temp before)
    (content : Holders L C)
    (p : Point L C) :
    Removing { s.setArray temp content with point := p } r :=
  ⟨h.created, h.lists.setArray hOwn.field _, h.listeners⟩

theorem Stands.pending
    {p : Point L C}
    {array size : Nat}
    (h : Stands equals s r p)
    (hPending : p.pending = some (array, size)) :
    s.listenerHolders = some array ∧
      s.arrays[array]? = some (r.holders.map some ++ [none]) ∧
        size = r.holders.length := by
  cases p with
  | createHolder c array' size' =>
      cases hPending
      exact ⟨h.1.field, h.1.holds, h.1.size⟩
  | storeHolder c array' size' holder =>
      cases hPending
      exact ⟨h.1.field, h.1.holds, h.1.size⟩
  | _ => cases hPending

/- What a notification finds that reads the field now. -/
theorem Stands.field
    {p : Point L C}
    {array : Nat}
    (h : Stands equals s r p)
    (hField : s.listenerHolders = some array) :
    s.arrays[array]? = some (r.holders.map some) ∨
      p.pending = some (array, r.holders.length) := by
  have hLists (hLists : Lists s r.holders) :
      s.arrays[array]? = some (r.holders.map some) := by
    rcases hLists with ⟨array', hField', hHolds⟩
    rw [hField] at hField'
    cases hField'
    exact hHolds
  have hSettled (hSettled : Settled s r) :
      s.arrays[array]? = some (r.holders.map some) := by
    rcases hSettled.listeners with ⟨hNone, _⟩ | ⟨hListed, _⟩
    · rw [hField] at hNone
      cases hNone
    · exact hLists hListed
  have hPending {c size} (h : HalfStored equals s r c array size) :
      some (array, size) = some (array, r.holders.length) := by
    rw [h.size]
  cases p with
  | idle => exact Or.inl (hSettled h)
  | enter c => exact Or.inl (hSettled h)
  | initArrayOfListeners c => exact Or.inl (hLists h.2.1)
  | readSize c => exact Or.inl (hLists h.lists)
  | allocateLonger c size => exact Or.inl (hLists h.lists)
  | copyAll c size temp => exact Or.inl (hLists h.1.lists)
  | publishLonger c size temp =>
      exact Or.inl (hLists h.1.lists)
  | createHolder c array' size =>
      have hEq := h.1.field
      rw [hField] at hEq
      cases hEq
      exact Or.inr (hPending h.1)
  | storeHolder c array' size holder =>
      have hEq := h.1.field
      rw [hField] at hEq
      cases hEq
      exact Or.inr (hPending h.1)
  | find l => exact Or.inl (hLists h.lists)
  | allocateShorter l index => exact Or.inl (hLists h.1.lists)
  | copyBefore l index newSize temp =>
      exact Or.inl (hLists h.1.lists)
  | copyAfter l index newSize temp =>
      exact Or.inl (hLists h.1.lists)
  | publishShorter l temp => exact Or.inl (hLists h.1.lists)

theorem Own.notifications
    {temp : Nat}
    {content : Holders L C}
    (h : Own s temp content)
    {ns : List (Notification L C)}
    (hns : ∀ n ∈ ns, Shares s n) :
    Own { s with notifications := ns } temp content := by
  refine ⟨h.holds, h.field, ?_⟩
  intro n hn
  rcases hns n hn with hNone | hField | ⟨n', hn', hSame⟩
  · rw [hNone]
    intro hEq
    cases hEq
  · rw [hField]
    exact h.field
  · rw [hSame]
    exact h.unread n' hn'

/- The call in progress does not see the notifications. -/
theorem Stands.notifications
    {p : Point L C}
    (h : Stands equals s r p)
    {ns : List (Notification L C)}
    (hns : ∀ n ∈ ns, Shares s n) :
    Stands equals { s with notifications := ns } r p := by
  cases p with
  | idle => exact ⟨h.created, h.listeners⟩
  | enter c => exact ⟨h.created, h.listeners⟩
  | initArrayOfListeners c => exact h
  | readSize c => exact ⟨h.created, h.lists, h.size, h.after⟩
  | allocateLonger c size =>
      exact ⟨h.created, h.lists, h.size, h.after⟩
  | copyAll c size temp =>
      exact
        ⟨⟨h.1.created, h.1.lists, h.1.size, h.1.after⟩,
          h.2.notifications hns⟩
  | publishLonger c size temp =>
      exact
        ⟨⟨h.1.created, h.1.lists, h.1.size, h.1.after⟩,
          h.2.notifications hns⟩
  | createHolder c array size =>
      exact
        ⟨⟨h.1.field, h.1.holds, h.1.size, h.1.after⟩, h.2⟩
  | storeHolder c array size holder =>
      exact
        ⟨⟨h.1.field, h.1.holds, h.1.size, h.1.after⟩, h.2⟩
  | find l => exact ⟨h.created, h.lists, h.listeners⟩
  | allocateShorter l index =>
      exact ⟨⟨h.1.created, h.1.lists, h.1.listeners⟩, h.2⟩
  | copyBefore l index newSize temp =>
      exact
        ⟨⟨h.1.created, h.1.lists, h.1.listeners⟩, h.2.1,
          h.2.2.notifications hns⟩
  | copyAfter l index newSize temp =>
      exact
        ⟨⟨h.1.created, h.1.lists, h.1.listeners⟩, h.2.1,
          h.2.2.notifications hns⟩
  | publishShorter l temp =>
      exact
        ⟨⟨h.1.created, h.1.lists, h.1.listeners⟩,
          h.2.notifications hns⟩

theorem Served.mono
    {s s' : Session L C}
    {hs : List (AllocationListenerHolder L C)}
    (h : Served equals s hs)
    (hCompleted : s.completed <+: s'.completed) :
    Served equals s' hs := by
  rcases h with ⟨k, hk, hEq⟩
  rcases hCompleted with ⟨calls, hCalls⟩
  refine ⟨k, ?_, ?_⟩
  · rw [← hCalls, List.length_append]
    omega
  · rw [← hCalls, List.take_append_of_le_length hk]
    exact hEq

theorem Served.now
    (equals : L → L → Bool)
    (s : Session L C) :
    Served equals s (listenersAfter equals s.completed) := by
  refine ⟨s.completed.length, Nat.le_refl _, ?_⟩
  rw [List.take_length]

/- A step that leaves alone what the notification reads. -/
theorem Follows.keep
    {s s' : Session L C}
    {n : Notification L C}
    (h : Follows equals s n)
    (hArrays :
      ∀ array content, n.array = some array →
        s.arrays[array]? = some content →
          s'.arrays[array]? = some content)
    (hCompleted : s.completed <+: s'.completed)
    (hPending :
      ∀ place, s.point.pending = some place →
        s'.point.pending = some place ∧
          s'.completed = s.completed) :
    Follows equals s' n := by
  cases n with
  | read => trivial
  | loop array i called =>
      rcases h with ⟨hs, hReads, hCalled⟩
      refine ⟨hs, ?_, hCalled⟩
      rcases hReads with ⟨hHolds, hServed⟩ | ⟨hPlace, hi, hEq⟩
      · exact Or.inl
          ⟨hArrays array _ rfl hHolds, hServed.mono hCompleted⟩
      · rcases hPending _ hPlace with ⟨hPlace', hSame⟩
        exact Or.inr ⟨hPlace', hi, hSame ▸ hEq⟩
  | ended array called =>
      cases array with
      | none => exact h
      | some array =>
          exact
            ⟨hArrays array _ rfl h.1, h.2.mono hCompleted⟩
  | metNull array i called => exact h

/- The arrays of the notifications are allocated. -/
theorem Invariant.array_lt
    (hInv : Invariant equals s)
    {n : Notification L C}
    (hn : n ∈ s.notifications)
    {array : Nat}
    (hArray : n.array = some array) :
    array < s.arrays.length := by
  have hFollows := hInv.follows n hn
  cases n with
  | read => cases hArray
  | loop array' i called =>
      cases hArray
      rcases hFollows with
        ⟨hs, ⟨hHolds, _⟩ | ⟨hPlace, _, _⟩, _⟩
      · exact (List.getElem?_eq_some_iff.mp hHolds).1
      · have hHolds := (hInv.stands.pending hPlace).2.1
        exact (List.getElem?_eq_some_iff.mp hHolds).1
  | ended array' called =>
      cases hArray
      exact (List.getElem?_eq_some_iff.mp hFollows.1).1
  | metNull array' i called => exact hFollows.elim

theorem Invariant.stands_at
    (hInv : Invariant equals s)
    {p : Point L C}
    (hPoint : s.point = p) :
    Stands equals s (registryAfter equals s.completed) p :=
  hPoint ▸ hInv.stands

section Follows

variable {s' : Session L C}
variable (hInv : Invariant equals s)
variable (hIdle : s.point.pending = none)
variable (hNotifications : s'.notifications = s.notifications)
variable (hCompleted : s.completed <+: s'.completed)
include hInv hIdle hNotifications hCompleted

theorem Invariant.follows_of_kept
    (hArrays :
      ∀ n ∈ s.notifications, ∀ array content,
        n.array = some array →
          s.arrays[array]? = some content →
            s'.arrays[array]? = some content) :
    ∀ n ∈ s'.notifications, Follows equals s' n := by
  intro n hn
  rw [hNotifications] at hn
  refine
    (hInv.follows n hn).keep (hArrays n hn) hCompleted ?_
  intro place hPlace
  rw [hIdle] at hPlace
  cases hPlace

theorem Invariant.follows_same
    (hArrays : s'.arrays = s.arrays) :
    ∀ n ∈ s'.notifications, Follows equals s' n := by
  apply hInv.follows_of_kept hIdle hNotifications hCompleted
  intro n _ array content _ hHolds
  rw [hArrays]
  exact hHolds

theorem Invariant.follows_allocate
    {content : Holders L C}
    (hArrays : s'.arrays = s.arrays ++ [content]) :
    ∀ n ∈ s'.notifications, Follows equals s' n := by
  apply hInv.follows_of_kept hIdle hNotifications hCompleted
  intro n _ array content _ hHolds
  rw [hArrays, List.getElem?_append_left
    (List.getElem?_eq_some_iff.mp hHolds).1]
  exact hHolds

/- No notification reads the array of the call. -/
theorem Invariant.follows_setArray
    {temp : Nat}
    {before content : Holders L C}
    (hOwn : Own s temp before)
    (hArrays : s'.arrays = s.arrays.set temp content) :
    ∀ n ∈ s'.notifications, Follows equals s' n := by
  apply hInv.follows_of_kept hIdle hNotifications hCompleted
  intro n hn array content hArray hHolds
  have hNe : temp ≠ array := by
    intro hEq
    exact hOwn.unread n hn (hEq ▸ hArray)
  rw [hArrays, List.getElem?_set_ne hNe]
  exact hHolds

end Follows

/-
  The holder is stored.  A notification that reads the array
  is before the place of the holder.
-/
theorem Follows.store
    {s s' : Session L C}
    {n : Notification L C}
    {array : Nat}
    {hs : List (AllocationListenerHolder L C)}
    {holder : AllocationListenerHolder L C}
    (h : Follows equals s n)
    (hPlace : s.point.pending = some (array, hs.length))
    (hHs : hs = listenersAfter equals s.completed)
    (hHolds : s.arrays[array]? = some (hs.map some ++ [none]))
    (hArrays :
      s'.arrays = s.arrays.set array ((hs ++ [holder]).map some))
    (hCompleted : s.completed <+: s'.completed)
    (hServed : Served equals s' (hs ++ [holder])) :
    Follows equals s' n := by
  have hStored :
      s'.arrays[array]? = some ((hs ++ [holder]).map some) := by
    have hRange := (List.getElem?_eq_some_iff.mp hHolds).1
    rw [hArrays]
    simp [hRange]
  have hOther {array' : Nat} {ls}
      (hListed : s.arrays[array']? = some (List.map some ls)) :
      s'.arrays[array']? = some (List.map some ls) := by
    have hNe : array ≠ array' := by
      intro hEq
      rw [← hEq, hHolds] at hListed
      exact map_some_ne ls hs (Option.some.inj hListed).symm
    rw [hArrays, List.getElem?_set_ne hNe]
    exact hListed
  cases n with
  | read => trivial
  | loop array' i called =>
      rcases h with
        ⟨ls, ⟨hListed, hLs⟩ | ⟨hPlace', hi, hEq⟩, hCalled⟩
      · exact
          ⟨ls, Or.inl ⟨hOther hListed, hLs.mono hCompleted⟩,
            hCalled⟩
      · have hLs : ls = hs := hEq.trans hHs.symm
        rw [hPlace, hLs] at hPlace'
        cases hPlace'
        refine ⟨hs ++ [holder], Or.inl ⟨hStored, hServed⟩, ?_⟩
        rw [hCalled, hLs,
          List.take_append_of_le_length (hLs ▸ hi)]
  | ended array' called =>
      cases array' with
      | none => exact h
      | some array' =>
          exact ⟨hOther h.1, h.2.mono hCompleted⟩
  | metNull array' i called => exact h

end Allocations

end MemoryAgent
