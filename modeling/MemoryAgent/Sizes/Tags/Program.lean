import Mathlib.Data.Finset.Basic
import MemoryAgent.Jvmti.Heap
import MemoryAgent.Memory.ReferenceCounting
import MemoryAgent.Sizes.Tags.TagInfoArray

/-
  The tags of the size actions: records that are shared by
  the objects that carry their address and count them, and
  the callbacks that create, merge and drop them.

  Key definitions include:
    * `SizesTags.Tag`
    * `SizesTags.TagMemory`
    * `SizesTags.getTagsWithNewInfo`
    * `SizesTags.visitReference`
    * `SizesTags.spreadInfo`
    * `SizesTags.createTagForObject`
    * `SizesTags.tagClass`
-/

------------------------------------------------------------
-- Tags
------------------------------------------------------------

namespace MemoryAgent

namespace SizesTags

open RecordStore

/- `Tag`, and `ClassTag` if there are `ids`. -/
structure Tag where
  isStartTag : Bool
  alreadyReferred : Bool
  array : TagInfoArray
  refCount : Nat
  ids : Option (List Nat)
deriving DecidableEq, Repr

/- `refCount` is an `uint32_t`. -/
def refCountSize : Nat :=
  2 ^ 32

namespace Tag

def incrementRefCount (tag : Tag) : Tag :=
  { tag with refCount := (tag.refCount + 1) % refCountSize }

def decrementRefCount (tag : Tag) : Tag :=
  { tag with
    refCount :=
      (tag.refCount + (refCountSize - 1)) % refCountSize }

theorem array_of_refCount
    (tag : Tag)
    (refCount : Nat) :
    { tag with refCount := refCount }.array = tag.array :=
  rfl

theorem incrementRefCount_array
    (tag : Tag) :
    tag.incrementRefCount.array = tag.array :=
  array_of_refCount tag _

theorem decrementRefCount_array
    (tag : Tag) :
    tag.decrementRefCount.array = tag.array :=
  array_of_refCount tag _

theorem alreadyReferred_of_refCount
    (tag : Tag)
    (refCount : Nat) :
    { tag with refCount := refCount }.alreadyReferred =
      tag.alreadyReferred :=
  rfl

theorem incrementRefCount_alreadyReferred
    (tag : Tag) :
    tag.incrementRefCount.alreadyReferred =
      tag.alreadyReferred :=
  alreadyReferred_of_refCount tag _

theorem decrementRefCount_alreadyReferred
    (tag : Tag) :
    tag.decrementRefCount.alreadyReferred =
      tag.alreadyReferred :=
  alreadyReferred_of_refCount tag _

/- The constructors. -/
def initial : Tag :=
  ⟨false, false, .empty, 1, none⟩

def ofInfo
    (index : Nat)
    (state : BitVec 8) : Tag :=
  ⟨true, false, .ofInfo ⟨index % querySize, state⟩, 1, none⟩

def ofMerge (referree referrer : Tag) : Tag :=
  ⟨referree.isStartTag, referree.alreadyReferred,
    referree.array.merge referrer.array, 1, none⟩

def ofArray
    (array : TagInfoArray)
    (isStartTag : Bool) : Tag :=
  ⟨isStartTag, false, array, 1, none⟩

def ofClass (id : Nat) : Tag :=
  { initial with ids := some [id % querySize] }

def copyWithoutStartMarks (tag : Tag) : Tag :=
  ofArray
    (tag.array.map
      (updateState (createState false false false true)))
    false

/- The new tag that `ClassTag::createStartTag` makes. -/
def startTag (ids : List Nat) : Tag :=
  ofArray
    (.filled
      (ids.map
        (fun id => ⟨id, createState true true false false⟩)))
    true

end Tag

------------------------------------------------------------
-- Memory
------------------------------------------------------------

/- The static tags, and where new ones are allocated. -/
structure TagAddresses where
  emptyTag : jlong
  tagWithNewInfo : jlong
  heldObjectTag : jlong
  nodup :
    [0, emptyTag, tagWithNewInfo, heldObjectTag].Nodup
  alloc :
    Allocator [0, emptyTag, tagWithNewInfo, heldObjectTag]

namespace TagAddresses

def reserved (m : TagAddresses) : List jlong :=
  [0, m.emptyTag, m.tagWithNewInfo, m.heldObjectTag]

def isStatic (m : TagAddresses) (tag : jlong) : Prop :=
  tag = m.emptyTag ∨ tag = m.tagWithNewInfo ∨
    tag = m.heldObjectTag

instance (m : TagAddresses) (tag : jlong) :
    Decidable (m.isStatic tag) := by
  unfold isStatic
  infer_instance

end TagAddresses

/- The tags and the global variables of the size actions. -/
structure TagMemory where
  store : Store Tag
  sizesTagBalance : jlong
  tagsWithNewInfo : Finset jlong

namespace TagMemory

def initial : TagMemory :=
  ⟨.empty, 0, ∅⟩

variable (m : TagAddresses)
variable (tags : TagMemory)

/- What a pointer leads to; nothing after a deletion. -/
def dereference (tag : jlong) : Option Tag :=
  if m.isStatic tag then
    some Tag.initial
  else if tag = 0 then
    none
  else
    tags.store.get tag

/- Write to a tag.  The static tags are constant. -/
def modify
    (tag : jlong)
    (f : Tag → Tag) : Option TagMemory :=
  if m.isStatic tag then
    none
  else
    (tags.store.get tag).map
      (fun t =>
        { tags with store := tags.store.set tag (f t) })

def new (t : Tag) : jlong × TagMemory :=
  (tags.store.nextAddress m.alloc,
    { tags with
      store := tags.store.create m.alloc t
      sizesTagBalance := tags.sizesTagBalance + 1 })

def deleteTag (tag : jlong) : TagMemory :=
  { tags with
    store := tags.store.delete tag
    sizesTagBalance := tags.sizesTagBalance - 1 }

def ref (tag : jlong) : Option TagMemory :=
  tags.modify m tag Tag.incrementRefCount

/- What `unref` does once the count is decremented. -/
def release
    (tag : jlong)
    (decremented : Tag) : Option TagMemory :=
  if decremented.refCount = 0 then
    some (tags.deleteTag tag)
  else
    tags.modify m tag (fun _ => decremented)

def unref (tag : jlong) : Option TagMemory :=
  if m.isStatic tag then
    some tags
  else
    (tags.store.get tag).bind
      (fun t => tags.release m tag t.decrementRefCount)

def share (tag : jlong) : Option (jlong × TagMemory) := do
  let t ← tags.dereference m tag
  if t.isStartTag = true then
    some (tags.new m t.copyWithoutStartMarks)
  else
    let tags ← tags.ref m tag
    some (tag, tags)

/- A loop that writes nothing if there are no infos. -/
def visitFromUntaggedReferrer
    (tag : jlong) : Option TagMemory := do
  let t ← tags.dereference m tag
  if t.array.infos = [] then
    some tags
  else
    tags.modify m tag
      (fun t =>
        { t with array := t.array.map asVisitedFromUntagged })

def setAlreadyReferred (tag : jlong) : Option TagMemory :=
  tags.modify m tag
    (fun t => { t with alreadyReferred := true })

/- The `ids`, if the pointer leads to a `ClassTag`. -/
def tagToClassTagPointer
    (tag : jlong) : Option (Option (List Nat)) :=
  if tag = 0 then
    some none
  else
    (tags.dereference m tag).map Tag.ids

def merge
    (referreeTag referrerTag : jlong) :
    Option (jlong × TagMemory) := do
  let referree ← tags.dereference m referreeTag
  let referrer ← tags.dereference m referrerTag
  let (result, tags) :=
    tags.new m (.ofMerge referree referrer)
  let tags ← tags.unref m referreeTag
  some (result, tags)

def shouldMerge
    (referree referrer : jlong) : Option Bool := do
  let referree ← tags.dereference m referree
  let referrer ← tags.dereference m referrer
  some (referree.array.shouldMerge referrer.array)

def tagsAreValidForMerge
    (referree referrer : jlong) : Option Bool := do
  let classTag ← tags.tagToClassTagPointer m referree
  if classTag.isSome = true ∨ referree = referrer then
    some false
  else
    tags.shouldMerge m referree referrer

/- `tagsWithNewInfo.insert`, `tagsWithNewInfo.erase` -/
def insertNewInfo (tag : jlong) : TagMemory :=
  { tags with
    tagsWithNewInfo := insert tag tags.tagsWithNewInfo }

def eraseNewInfo (tag : jlong) : TagMemory :=
  { tags with
    tagsWithNewInfo := tags.tagsWithNewInfo.erase tag }

end TagMemory

------------------------------------------------------------
-- Reference Callbacks
------------------------------------------------------------

/- Whether the referrer was handled, and the new tag. -/
def handleReferrersWithNoInfo
    (m : TagAddresses)
    (referrerTag : Option jlong)
    (tag : jlong)
    (setTagsWithNewInfo : Bool)
    (tags : TagMemory) :
    Option (Bool × jlong × TagMemory) :=
  match referrerTag with
  | none => untagged
  | some referrerTag =>
      if referrerTag = m.emptyTag then
        untagged
      else if referrerTag = m.tagWithNewInfo ∨
          referrerTag = 0 then
        some (true, tag, tags)
      else do
        let classTag ←
          tags.tagToClassTagPointer m referrerTag
        some (classTag.isSome, tag, tags)
where
  untagged : Option (Bool × jlong × TagMemory) :=
    if tag = 0 then
      some (true, m.emptyTag, tags)
    else if tag = m.emptyTag then
      some (true, tag, tags)
    else do
      let referree ← tags.dereference m tag
      if setTagsWithNewInfo = true ∧
          referree.alreadyReferred = true then
        let tags ← tags.unref m tag
        some (true, m.tagWithNewInfo, tags)
      else
        let tags ← tags.visitFromUntaggedReferrer m tag
        some (true, tag, tags)

/- The new tag of the referree, and the memory. -/
def getTagsWithNewInfo
    (m : TagAddresses)
    (args : ReferenceArguments jlong)
    (tags : TagMemory) : Option (jlong × TagMemory) :=
  if args.refKind.isJni = true ∨
      args.tag = m.tagWithNewInfo then
    some (args.tag, tags)
  else do
    let (handled, tag, tags) ←
      handleReferrersWithNoInfo m args.referrerTag args.tag
        true tags
    if handled = true then
      some (tag, tags)
    else
      let referrer ← args.referrerTag
      let (tag, tags) ←
        if tag = 0 then
          tags.share m referrer
        else do
          let valid ← tags.tagsAreValidForMerge m tag referrer
          if valid = true then
            let referree ← tags.dereference m tag
            if referree.alreadyReferred = true then
              let tags ← tags.unref m tag
              some (m.tagWithNewInfo, tags)
            else
              tags.merge m tag referrer
          else
            some (tag, tags)
      let tags ← tags.setAlreadyReferred m referrer
      some (tag, tags)

def visitReference
    (m : TagAddresses)
    (args : ReferenceArguments jlong)
    (tags : TagMemory) : Option (jlong × TagMemory) :=
  if args.refKind.isJni = true then
    some (args.tag, tags)
  else do
    let (handled, tag, tags) ←
      handleReferrersWithNoInfo m args.referrerTag args.tag
        false tags
    if handled = true then
      some (tag, tags)
    else
      let referrer ← args.referrerTag
      if tag = 0 then
        tags.share m referrer
      else if tag = m.tagWithNewInfo then
        let (tag, tags) ← tags.share m referrer
        some (tag, tags.insertNewInfo tag)
      else
        let valid ← tags.tagsAreValidForMerge m tag referrer
        if valid = true then
          let tags := tags.eraseNewInfo tag
          let (tag, tags) ← tags.merge m tag referrer
          some (tag, tags.insertNewInfo tag)
        else
          some (tag, tags)

def spreadInfo
    (m : TagAddresses)
    (args : ReferenceArguments jlong)
    (tags : TagMemory) : Option (jlong × TagMemory) :=
  if args.refKind.isJni = true ∨ args.tag = 0 then
    some (args.tag, tags)
  else do
    let referrer ← args.referrerTag
    if referrer = 0 then
      some (args.tag, tags)
    else
      let tags := tags.eraseNewInfo args.tag
      let merged ←
        if referrer = args.tag then some false
        else tags.shouldMerge m args.tag referrer
      if merged = true then
        tags.merge m args.tag referrer
      else
        some (args.tag, tags)

/-
  The callback that runs such a function.  Its data is absent
  after it has used a tag that was deleted.
-/
def referenceCallback
    (f :
      ReferenceArguments jlong → TagMemory →
        Option (jlong × TagMemory)) :
    HeapReferenceCallback jlong (Option TagMemory) :=
  fun args user =>
    match user.bind (f args) with
    | none => (args.tag, none, .stop)
    | some (tag, tags) => (tag, some tags, .visit)

------------------------------------------------------------
-- Iteration Callbacks
------------------------------------------------------------

def clearTag
    (m : TagAddresses)
    (tag : jlong)
    (tags : TagMemory) : Option (jlong × TagMemory) :=
  if tag = 0 then
    some (tag, tags)
  else do
    let tags ← tags.unref m tag
    some (0, tags)

def retagStartObjects
    (m : TagAddresses)
    (classTag tag : jlong)
    (tags : TagMemory) : Option (jlong × TagMemory) := do
  let pClassTag ← tags.tagToClassTagPointer m classTag
  match pClassTag with
  | none => some (tag, tags)
  | some ids =>
      if tag = m.tagWithNewInfo then
        let (tag, tags) := tags.new m (.startTag ids)
        some (tag, tags.insertNewInfo tag)
      else
        some (tag, tags)

def tagObjectOfTaggedClass
    (m : TagAddresses)
    (classTag tag : jlong)
    (tags : TagMemory) : Option (jlong × TagMemory) := do
  let pClassTag ← tags.tagToClassTagPointer m classTag
  match pClassTag with
  | none => some (tag, tags)
  | some ids =>
      if tag = 0 then
        some (tags.new m (.startTag ids))
      else
        some (tag, tags)

/- The infos that `visitObject` reads. -/
def visitedInfos
    (m : TagAddresses)
    (tag : jlong)
    (tags : TagMemory) : Option (List TagInfo) :=
  if tag = 0 then
    some []
  else
    (tags.dereference m tag).map (fun t => t.array.infos)

/- Add a size to the results of the selected infos. -/
def addSizes
    (selects : BitVec 8 → Bool)
    (size : jlong)
    (infos : List TagInfo)
    (result : List jlong) : List jlong :=
  infos.foldl
    (fun result info =>
      if selects info.state = true then
        result.modify info.index (· + size)
      else
        result)
    result

def visitObject
    (m : TagAddresses)
    (size tag : jlong)
    (tags : TagMemory)
    (result : List jlong) : Option (List jlong) := do
  let infos ← visitedInfos m tag tags
  some (addSizes isRetained size infos result)

/- The shallow sizes and the retained sizes. -/
def visitObjectForShallowAndRetainedSize
    (m : TagAddresses)
    (size tag : jlong)
    (tags : TagMemory)
    (arrays : List jlong × List jlong) :
    Option (List jlong × List jlong) := do
  let infos ← visitedInfos m tag tags
  some (addSizes isStartObject size infos arrays.1,
    addSizes isRetained size infos arrays.2)

def calculateShallowSize
    (m : TagAddresses)
    (classTag size : jlong)
    (tags : TagMemory)
    (sizes : List jlong) : Option (List jlong) := do
  let pClassTag ← tags.tagToClassTagPointer m classTag
  match pClassTag with
  | none => some sizes
  | some ids =>
      some (ids.foldl
        (fun sizes id => sizes.modify id (· + size)) sizes)

------------------------------------------------------------
-- Start Tags
------------------------------------------------------------

/- The new tag of the object, as `SetTag` leaves it. -/
def createTagForObject
    (m : TagAddresses)
    (index : Nat)
    (oldTag : jlong)
    (tags : TagMemory) : Option (jlong × TagMemory) :=
  let (tag, tags) :=
    tags.new m
      (.ofInfo index (createState true true false false))
  if oldTag ≠ 0 ∧ oldTag ≠ m.tagWithNewInfo then do
    let t ← tags.dereference m tag
    let tags ←
      tags.modify m oldTag
        (fun old =>
          { old with array := old.array.extend t.array })
    some (oldTag, tags.deleteTag tag)
  else
    some (tag, tags)

/- What the lambda does with one class, and `SetTag`. -/
def tagClass
    (m : TagAddresses)
    (index : Nat)
    (oldTag : jlong)
    (tags : TagMemory) : Option (jlong × TagMemory) := do
  let classTag ← tags.tagToClassTagPointer m oldTag
  match classTag with
  | some ids =>
      let tags ←
        tags.modify m oldTag
          (fun t =>
            { t with
              ids := some (ids ++ [index % querySize]) })
      some (oldTag, tags)
  | none => some (tags.new m (.ofClass index))

end SizesTags

end MemoryAgent
