import Mathlib.Data.List.Basic

/-
  `ArrayOfListeners` and the calls of `MemoryAgent` that add
  and remove allocation listeners, beside the notifications
  of sampled allocations.

  The array of listener holders is replaced as a whole, step
  by step, and a notification reads it between any two steps.
  The methods of `MemoryAgent` are `synchronized`, so that
  one call is in progress at a time.

  Key definitions include:
    * `Allocations.Session`
    * `Allocations.advance`
    * `Allocations.notify`
    * `Allocations.execute`
-/

------------------------------------------------------------
-- Arrays
------------------------------------------------------------

namespace MemoryAgent

namespace Allocations

/- The holders are numbered as they are created. -/
structure AllocationListenerHolder (L C : Type) where
  number : Nat
  listener : L
  trackedClasses : List C
deriving DecidableEq

/- The contents of an `Object[]`; `none` is null. -/
abbrev Holders (L C : Type) :=
  List (Option (AllocationListenerHolder L C))

/- `System.arraycopy`, unless it throws. -/
def arraycopy
    {α : Type}
    (src : List α)
    (srcPos : Nat)
    (dest : List α)
    (destPos length : Nat) : Option (List α) :=
  if srcPos + length ≤ src.length ∧
      destPos + length ≤ dest.length then
    some (dest.take destPos ++
      ((src.drop srcPos).take length ++
        dest.drop (destPos + length)))
  else
    none

/-
  `findListener` from the index `i` on.  It has no result
  when it meets null.
-/
def findListener
    {L C : Type}
    (equals : L → L → Bool)
    (allocationListener : L) :
    Holders L C → Nat → Option Int
| [], _ => some (-1)
| none :: _, _ => none
| some holder :: rest, i =>
    if equals holder.listener allocationListener then
      some i
    else
      findListener equals allocationListener rest (i + 1)

------------------------------------------------------------
-- Sessions
------------------------------------------------------------

/-
  `initialized` is the answer of `initArrayOfListeners`, if
  the call asks for it; an exception counts as false.
-/
structure Addition (L C : Type) where
  allocationListener : L
  trackedClasses : List C
  initialized : Bool
deriving DecidableEq

inductive Call (L C : Type) where
  | addAllocationListener (c : Addition L C)
  | removeAllocationListener (allocationListener : L)
deriving DecidableEq

/-
  How far the call in progress has come.  A point is named
  after the step that is next.
-/
inductive Point (L C : Type) where
  | idle
  | enter (c : Call L C)
  -- `addAllocationListener` and `add`
  | initArrayOfListeners (c : Addition L C)
  | readSize (c : Addition L C)
  | allocateLonger (c : Addition L C) (size : Nat)
  | copyAll (c : Addition L C) (size temp : Nat)
  | publishLonger (c : Addition L C) (size temp : Nat)
  | createHolder (c : Addition L C) (array size : Nat)
  | storeHolder
      (c : Addition L C)
      (array size : Nat)
      (holder : AllocationListenerHolder L C)
  -- `remove`
  | find (allocationListener : L)
  | allocateShorter (allocationListener : L) (index : Int)
  | copyBefore
      (allocationListener : L)
      (index newSize temp : Nat)
  | copyAfter
      (allocationListener : L)
      (index newSize temp : Nat)
  | publishShorter (allocationListener : L) (temp : Nat)
deriving DecidableEq

/-
  A run of `notifyAll`: `called` are the holders called so
  far.  One that ends without a mirror object has no array.
-/
inductive Notification (L C : Type) where
  | read
  | loop
      (array i : Nat)
      (called : List (AllocationListenerHolder L C))
  | ended
      (array : Option Nat)
      (called : List (AllocationListenerHolder L C))
  | metNull
      (array i : Nat)
      (called : List (AllocationListenerHolder L C))
deriving DecidableEq

/-
  `arrays` are the arrays allocated so far, and an array is
  known by its place.  `listenerHolders` is the field of the
  listeners, absent while `listeners` is null.  The native
  side knows the listeners when there is a `mirrorObject`.
-/
structure Session (L C : Type) where
  arrays : List (Holders L C)
  listenerHolders : Option Nat
  mirrorObject : Bool
  created : Nat
  point : Point L C
  completed : List (Call L C)
  notifications : List (Notification L C)

def Session.initial (L C : Type) : Session L C where
  arrays := []
  listenerHolders := none
  mirrorObject := false
  created := 0
  point := .idle
  completed := []
  notifications := []

------------------------------------------------------------
-- Steps
------------------------------------------------------------

variable {L C : Type}

namespace Session

/- `new Object[length]`, at the next place. -/
def allocate
    (s : Session L C)
    (length : Nat) : Session L C :=
  { s with
    arrays := s.arrays ++ [List.replicate length none] }

def setArray
    (s : Session L C)
    (array : Nat)
    (content : Holders L C) : Session L C :=
  { s with arrays := s.arrays.set array content }

/- The content of `listenerHolders`. -/
def content (s : Session L C) : Option (Holders L C) := do
  let array ← s.listenerHolders
  s.arrays[array]?

/- The call returns, or throws. -/
def complete
    (s : Session L C)
    (c : Call L C) : Session L C :=
  { s with point := .idle, completed := s.completed ++ [c] }

@[simp] theorem complete_point
    (s : Session L C)
    (c : Call L C) :
    (s.complete c).point = .idle :=
  rfl

end Session

/-
  The next step of the call in progress.  Exceptions that are
  not those of `initArrayOfListeners` have no result.
-/
def advance
    (equals : L → L → Bool)
    (s : Session L C) : Option (Session L C) :=
  match s.point with
  | .idle => none
  | .enter (.addAllocationListener c) =>
      if s.listenerHolders = none then
        -- The constructor allocates an empty array.
        some { s.allocate 0 with
          listenerHolders := some s.arrays.length
          point := .initArrayOfListeners c }
      else
        some { s with point := .readSize c }
  | .enter (.removeAllocationListener l) =>
      if s.listenerHolders = none then
        some (s.complete (.removeAllocationListener l))
      else
        some { s with point := .find l }
  | .initArrayOfListeners c =>
      if c.initialized then
        some { s with mirrorObject := true, point := .readSize c }
      else
        some (s.complete (.addAllocationListener c))
  | .readSize c => do
      let content ← s.content
      some { s with point := .allocateLonger c content.length }
  | .allocateLonger c size =>
      some { s.allocate (size + 1) with
        point := .copyAll c size s.arrays.length }
  | .copyAll c size temp => do
      if size ≠ 0 then
        let src ← s.content
        let dest ← s.arrays[temp]?
        let dest ← arraycopy src 0 dest 0 size
        some { s.setArray temp dest with
          point := .publishLonger c size temp }
      else
        some { s with point := .publishLonger c size temp }
  | .publishLonger c size temp =>
      -- `listenerHolders[size] = new ...` evaluates the array
      -- before the holder is allocated.
      some { s with
        listenerHolders := some temp
        point := .createHolder c temp size }
  | .createHolder c array size =>
      some { s with
        created := s.created + 1
        point := .storeHolder c array size
          ⟨s.created, c.allocationListener,
            c.trackedClasses⟩ }
  | .storeHolder c array size holder => do
      let content ← s.arrays[array]?
      if size < content.length then
        some ((s.setArray array
          (content.set size (some holder))).complete
            (.addAllocationListener c))
      else
        none
  | .find l => do
      let content ← s.content
      let index ← findListener equals l content 0
      some { s with point := .allocateShorter l index }
  | .allocateShorter l index => do
      let content ← s.content
      let newSize : Int := content.length - 1
      if index < 0 ∨ newSize < index then
        some (s.complete (.removeAllocationListener l))
      else
        some { s.allocate newSize.toNat with
          point := .copyBefore l index.toNat newSize.toNat
            s.arrays.length }
  | .copyBefore l index newSize temp => do
      let src ← s.content
      let dest ← s.arrays[temp]?
      let dest ← arraycopy src 0 dest 0 index
      some { s.setArray temp dest with
        point := .copyAfter l index newSize temp }
  | .copyAfter l index newSize temp => do
      let src ← s.content
      let dest ← s.arrays[temp]?
      let dest ←
        arraycopy src (index + 1) dest index
          (newSize - index)
      some { s.setArray temp dest with
        point := .publishShorter l temp }
  | .publishShorter l temp =>
      some ({ s with listenerHolders := some temp }.complete
        (.removeAllocationListener l))

/- The next step of a run of `notifyAll`. -/
def notify
    (s : Session L C) :
    Notification L C → Option (Notification L C)
| .read =>
    match s.mirrorObject, s.listenerHolders with
    | true, some array => some (.loop array 0 [])
    | _, _ => some (.ended none [])
| .loop array i called => do
    let content ← s.arrays[array]?
    match content[i]? with
    | none => some (.ended (some array) called)
    | some none => some (.metNull array i called)
    | some (some holder) =>
        some (.loop array (i + 1) (called ++ [holder]))
| .ended _ _ => none
| .metNull _ _ _ => none

/-
  A call begins or goes on, an allocation is sampled, or one
  of the notifications goes on.
-/
inductive Command (L C : Type) where
  | call (c : Call L C)
  | advance
  | sample
  | notify (j : Nat)
deriving DecidableEq

/- One step, if the command is possible. -/
def execute
    (equals : L → L → Bool)
    (s : Session L C) : Command L C → Option (Session L C)
| .call c =>
    match s.point with
    | .idle => some { s with point := .enter c }
    | _ => none
| .advance => advance equals s
| .sample =>
    some { s with notifications := s.notifications ++ [.read] }
| .notify j => do
    let n ← s.notifications[j]?
    let n ← notify s n
    some { s with notifications := s.notifications.set j n }

end Allocations

end MemoryAgent
