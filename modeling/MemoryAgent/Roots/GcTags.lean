import MemoryAgent.Memory.Store
import MemoryAgent.Roots.Infos

/-
  The tags of the search for roots: records that hold the
  back references of the object that carries their address.
  All class objects of soft, weak and phantom references
  carry the address of one static tag.

  Key definitions include:
    * `Roots.State`
    * `Roots.GcTag`
    * `Roots.GcTags`
    * `Roots.GcTags.backRefs`
    * `Roots.collectPaths`
    * `Roots.createTags`
-/

------------------------------------------------------------
-- States
------------------------------------------------------------

namespace MemoryAgent

namespace Roots

structure State where
  state : BitVec 8
deriving DecidableEq, Repr

namespace State

def setAttribute
    (s : State)
    (value : Bool)
    (offset : Nat) : State :=
  if value = true then
    ⟨s.state ||| (1#8 <<< offset)⟩
  else
    ⟨s.state &&& ~~~(1#8 <<< offset)⟩

def checkAttribute
    (s : State)
    (offset : Nat) : Bool :=
  s.state &&& (1#8 <<< offset) != 0#8

def setAlreadyVisited
    (s : State)
    (value : Bool) : State :=
  s.setAttribute value 0

def setWeakSoftReachable
    (s : State)
    (value : Bool) : State :=
  s.setAttribute value 1

def isAlreadyVisited (s : State) : Bool :=
  s.checkAttribute 0

def isWeakSoftReachable (s : State) : Bool :=
  s.checkAttribute 1

def initial : State :=
  ⟨0#8⟩

def create
    (isAlreadyVisited isWeakSoftReachable : Bool) : State :=
  (initial.setAlreadyVisited
    isAlreadyVisited).setWeakSoftReachable
    isWeakSoftReachable

def updateWeakSoftReachableValue
    (s referrerState : State) : State :=
  if s.isWeakSoftReachable = true then
    if referrerState.isWeakSoftReachable = false then
      s.setWeakSoftReachable false
    else
      s
  else if referrerState.isWeakSoftReachable = true ∧
      s.isAlreadyVisited = false then
    s.setWeakSoftReachable true
  else
    s

end State

------------------------------------------------------------
-- Tags
------------------------------------------------------------

structure GcTag where
  backRefs : List ReferenceInfo
  state : State
deriving DecidableEq, Repr

namespace GcTag

/- The two constructors. -/
def initial : GcTag :=
  ⟨[], State.initial⟩

def ofWeakSoftReachable
    (isWeakSoftReachable : Bool) : GcTag :=
  ⟨[], State.create false isWeakSoftReachable⟩

def isWeakSoftReachable (t : GcTag) : Bool :=
  t.state.isWeakSoftReachable

end GcTag

/-
  Where tags are in memory.  An address is neither the null
  pointer nor the number recorded for roots.
-/
structure Addresses where
  weakSoftReferenceTag : jlong
  ne_zero : weakSoftReferenceTag ≠ 0
  ne_root : weakSoftReferenceTag ≠ rootTag
  alloc :
    RecordStore.Allocator [0, rootTag, weakSoftReferenceTag]

theorem one_ne_rootTag : (1 : jlong) ≠ rootTag := by
  decide

theorem reserved_le_one :
    ∀ a ∈ [0, rootTag, 1], a ≤ (1 : jlong) := by
  decide

/-
  The memory of the tags: the static tag, the tags created
  with `new`, and the counter that looks for leaks.
-/
structure GcTags where
  weakSoftReferenceTag : GcTag
  store : RecordStore.Store GcTag
  rootsTagBalance : jlong

namespace GcTags

/-
  The tag at an address, or nothing if it was deleted.  For
  the null pointer a new tag is made and forgotten.
-/
def pointerToGcTag
    (m : Addresses)
    (tags : GcTags)
    (tagPtr : jlong) : Option GcTag :=
  if tagPtr = 0 then
    some GcTag.initial
  else if tagPtr = m.weakSoftReferenceTag then
    some tags.weakSoftReferenceTag
  else
    tags.store.get tagPtr

/- Change the tag at an address. -/
def modify
    (m : Addresses)
    (tags : GcTags)
    (tagPtr : jlong)
    (f : GcTag → GcTag) : Option GcTags :=
  if tagPtr = 0 then
    some tags
  else if tagPtr = m.weakSoftReferenceTag then
    some { tags with
      weakSoftReferenceTag := f tags.weakSoftReferenceTag }
  else
    (tags.store.get tagPtr).map
      (fun t => { tags with
        store := tags.store.set tagPtr (f t) })

/- A new tag and its address. -/
def new
    (m : Addresses)
    (tags : GcTags)
    (t : GcTag) : jlong × GcTags :=
  (tags.store.nextAddress m.alloc,
    { tags with
      store := tags.store.create m.alloc t
      rootsTagBalance := tags.rootsTagBalance + 1 })

/- `GcTag::create` without and with the tag of a class. -/
def create
    (m : Addresses)
    (tags : GcTags) : jlong × GcTags :=
  tags.new m GcTag.initial

def createForClass
    (m : Addresses)
    (tags : GcTags)
    (classTag : jlong) : Option (jlong × GcTags) :=
  if classTag ≠ 0 then do
    let t ← tags.pointerToGcTag m classTag
    some (tags.new m
      (GcTag.ofWeakSoftReachable t.isWeakSoftReachable))
  else
    some (tags.new m (GcTag.ofWeakSoftReachable false))

def updateState
    (m : Addresses)
    (tags : GcTags)
    (tagPtr : jlong)
    (referrer : GcTag) : Option GcTags :=
  if tagPtr ≠ m.weakSoftReferenceTag then
    tags.modify m tagPtr
      (fun t => { t with
        state :=
          t.state.updateWeakSoftReachableValue
            referrer.state })
  else
    some tags

def pushBackRef
    (m : Addresses)
    (tags : GcTags)
    (tagPtr : jlong)
    (info : ReferenceInfo) : Option GcTags :=
  tags.modify m tagPtr
    (fun t => { t with backRefs := t.backRefs ++ [info] })

def setVisited
    (m : Addresses)
    (tags : GcTags)
    (tagPtr : jlong) : Option GcTags :=
  tags.modify m tagPtr
    (fun t => { t with
      state := t.state.setAlreadyVisited true })

/-
  The back references behind a pointer.  The one to a tag
  that was deleted must not be followed.
-/
def backRefs
    (m : Addresses)
    (tags : GcTags)
    (tagPtr : jlong) : Option (List ReferenceInfo) :=
  (tags.pointerToGcTag m tagPtr).map GcTag.backRefs

/- The back references that are in memory for an address. -/
def recorded
    (m : Addresses)
    (tags : GcTags)
    (tagPtr : jlong) : List ReferenceInfo :=
  match tags.backRefs m tagPtr with
  | none => []
  | some backRefs => backRefs

theorem recorded_eq
    (m : Addresses)
    (tags : GcTags)
    (tagPtr : jlong) :
    tags.recorded m tagPtr =
      match tags.pointerToGcTag m tagPtr with
      | none => []
      | some t => t.backRefs := by
  unfold recorded backRefs
  cases tags.pointerToGcTag m tagPtr with
  | none => rfl
  | some t => rfl

end GcTags

------------------------------------------------------------
-- Collecting Back References
------------------------------------------------------------

/- The tag that decides how the state is updated. -/
def referrerForState
    (m : Addresses)
    (tags : GcTags)
    (referrerClassTag referrerTag : jlong) :
    Option GcTag :=
  if referrerClassTag ≠ 0 then do
    let t ← tags.pointerToGcTag m referrerClassTag
    if t.isWeakSoftReachable = true then
      some t
    else
      tags.pointerToGcTag m referrerTag
  else
    tags.pointerToGcTag m referrerTag

/-
  The part of the callback that depends on the referrer.  For
  a reference of an object to itself, the referrer's tag is
  read after the tag of the referee was written.
-/
def recordReferrer
    (m : Addresses)
    (args : ReferenceArguments jlong)
    (tag : jlong)
    (tags : GcTags) : Option GcTags :=
  match args.referrerTag with
  | some referrerTag => do
      let referrerTag :=
        if args.selfReference = true then tag
        else referrerTag
      let referrer ←
        referrerForState m tags args.referrerClassTag
          referrerTag
      let tags ← tags.updateState m tag referrer
      tags.pushBackRef m tag
        (createReferenceInfo referrerTag args.refKind
          args.refInfo)
  | none =>
      tags.pushBackRef m tag
        (createReferenceInfo rootTag args.refKind
          args.refInfo)

/- The new tag of the referee and the memory afterwards. -/
def collectPath
    (m : Addresses)
    (args : ReferenceArguments jlong)
    (tags : GcTags) : Option (jlong × GcTags) := do
  let (tag, tags) ←
    if args.tag = 0 then
      tags.createForClass m args.referrerClassTag
    else
      some (args.tag, tags)
  let tags ← recordReferrer m args tag tags
  let tags ← tags.setVisited m tag
  some (tag, tags)

/-
  The callback.  Its data is absent after it has used a tag
  that was deleted.
-/
def collectPaths
    (m : Addresses) :
    HeapReferenceCallback jlong (Option GcTags) :=
  fun args tags =>
    match tags.bind (collectPath m args) with
    | none => (args.tag, none, .stop)
    | some (tag, tags) => (tag, some tags, .visit)

section Heap

variable {O : Type}
variable [DecidableEq O]

/- Give every listed class object the same tag. -/
def setTagsForReferences
    {U : Type}
    (refClasses : List O)
    (tag : jlong)
    (s : Tagged O jlong U) : Tagged O jlong U :=
  refClasses.foldl (fun s c => s.setTag c tag) s

/-
  The tags before the traversal, and the tag of the target.
  `refClasses` are the loaded classes that a reference class
  is assignable from.
-/
def initialTags
    (m : Addresses)
    (refClasses : List O)
    (target : O)
    (tags : GcTags) : jlong × Tagged O jlong (Option GcTags) :=
  let s :=
    setTagsForReferences refClasses m.weakSoftReferenceTag
      ⟨fun _ => 0, ()⟩
  let (tag, tags) := tags.create m
  (tag, ⟨(s.setTag target tag).tag, some tags⟩)

def createTags
    (h : Heap O)
    (m : Addresses)
    (refClasses : List O)
    (target : O)
    (tags : GcTags)
    (reports : List (Report O)) :
    jlong × Tagged O jlong (Option GcTags) :=
  let (tag, s) := initialTags m refClasses target tags
  (tag, h.followReferences none (collectPaths m) s reports)

end Heap

end Roots

end MemoryAgent
