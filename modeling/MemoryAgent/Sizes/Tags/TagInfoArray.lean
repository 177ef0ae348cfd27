import Mathlib.Algebra.Group.Nat.Defs
import Mathlib.Tactic.Common

/-
  What a tag says about each queried object or class: a byte
  of flags, in an array that is ordered by indices.  Sizes
  and indices of the arrays have 16 bits.

  Key definitions include:
    * `createState`
    * `updateState`
    * `TagInfoArray`
    * `TagInfoArray.mergeInfos`
    * `TagInfoArray.shouldMerge`

  Main result:
    * `TagInfoArray.getNewArraySize_eq`
-/

------------------------------------------------------------
-- States
------------------------------------------------------------

namespace MemoryAgent

namespace SizesTags

def isStartObject (state : BitVec 8) : Bool :=
  state &&& 1#8 != 0#8

def isInSubtree (state : BitVec 8) : Bool :=
  state &&& (1#8 <<< 1) != 0#8

def isReachableOutside (state : BitVec 8) : Bool :=
  state &&& (1#8 <<< 2) != 0#8

def isAlreadyVisited (state : BitVec 8) : Bool :=
  state &&& (1#8 <<< 3) != 0#8

def createState
    (isStartObject isInSubtree isReachableOutside
      isAlreadyVisited : Bool) : BitVec 8 :=
  let state := 0#8
  let state :=
    if isStartObject then state ||| 1#8 else state
  let state :=
    if isInSubtree then state ||| (1#8 <<< 1) else state
  let state :=
    if isReachableOutside then state ||| (1#8 <<< 2)
    else state
  if isAlreadyVisited then state ||| (1#8 <<< 3) else state

def isRetained (state : BitVec 8) : Bool :=
  isStartObject state ||
    (isInSubtree state && !isReachableOutside state)

def updateState
    (currentState referrerState : BitVec 8) : BitVec 8 :=
  createState (isStartObject currentState)
    (isInSubtree currentState || isInSubtree referrerState)
    (isReachableOutside currentState ||
      (!isStartObject referrerState &&
        isReachableOutside referrerState))
    true

def asVisitedFromUntagged
    (state : BitVec 8) : BitVec 8 :=
  state ||| (1#8 <<< 2) ||| (1#8 <<< 3)

section States

variable (a b c d : Bool)

@[simp] theorem isStartObject_createState :
    isStartObject (createState a b c d) = a := by
  cases a <;> cases b <;> cases c <;> cases d <;> rfl

@[simp] theorem isInSubtree_createState :
    isInSubtree (createState a b c d) = b := by
  cases a <;> cases b <;> cases c <;> cases d <;> rfl

@[simp] theorem isReachableOutside_createState :
    isReachableOutside (createState a b c d) = c := by
  cases a <;> cases b <;> cases c <;> cases d <;> rfl

@[simp] theorem isAlreadyVisited_createState :
    isAlreadyVisited (createState a b c d) = d := by
  cases a <;> cases b <;> cases c <;> cases d <;> rfl

variable (state : BitVec 8)

@[simp] theorem isStartObject_asVisitedFromUntagged :
    isStartObject (asVisitedFromUntagged state) =
      isStartObject state := by
  revert state
  decide

end States

------------------------------------------------------------
-- Arrays
------------------------------------------------------------

structure TagInfo where
  index : Nat
  state : BitVec 8
deriving DecidableEq, Repr

/- `query_size_t` -/
def querySize : Nat :=
  2 ^ 16

structure TagInfoArray where
  infos : List TagInfo
  size_lt : infos.length < querySize
deriving DecidableEq, Repr

namespace TagInfoArray

def getSize (array : TagInfoArray) : Nat :=
  array.infos.length

/- No infos, as in a default constructed tag. -/
def empty : TagInfoArray :=
  ⟨[], by decide⟩

def ofInfo (info : TagInfo) : TagInfoArray :=
  ⟨[info], show 1 < querySize by decide⟩

/-
  A buffer that a counter with 16 bits fills: its size is
  the number of infos modulo 2 ^ 16, and the last infos stay.
  Infos written behind its end are lost.
-/
def filled (infos : List TagInfo) : TagInfoArray where
  infos :=
    infos.drop
      (infos.length / querySize * querySize)
  size_lt := by
    rw [List.length_drop]
    have hPos : 0 < querySize := by decide
    have hMod := Nat.mod_lt infos.length hPos
    have hDiv := Nat.div_add_mod infos.length querySize
    rw [Nat.mul_comm] at hDiv
    omega

theorem filled_infos
    {infos : List TagInfo}
    (hLt : infos.length < querySize) :
    (filled infos).infos = infos := by
  simp [filled, Nat.div_eq_of_lt hLt]

/- `operator[]` on every info. -/
def map
    (f : BitVec 8 → BitVec 8)
    (array : TagInfoArray) : TagInfoArray where
  infos :=
    array.infos.map
      (fun info => ⟨info.index, f info.state⟩)
  size_lt := by
    rw [List.length_map]
    exact array.size_lt

/- The size of the extended array wraps around. -/
def extend
    (array infoArray : TagInfoArray) : TagInfoArray where
  infos :=
    (array.infos ++ infoArray.infos).take
      ((array.getSize + infoArray.getSize) % querySize)
  size_lt := by
    have hPos : 0 < querySize := by decide
    exact Nat.lt_of_le_of_lt (List.length_take_le _ _)
      (Nat.mod_lt _ hPos)

/-
  An info of the referrer's array only, and one of the
  referree's array only.
-/
def newInfo
    (alreadyVisited : Bool)
    (info : TagInfo) : TagInfo :=
  ⟨info.index,
    updateState
      (createState false false alreadyVisited true)
      info.state⟩

def oldInfo (info : TagInfo) : TagInfo :=
  ⟨info.index,
    updateState info.state
      (createState false false true true)⟩

/- The loops of the constructor that merges two arrays. -/
def mergeInfos
    (alreadyVisited : Bool) :
    List TagInfo → List TagInfo → List TagInfo
| [], referrer =>
    referrer.map (newInfo alreadyVisited)
| referree, [] => referree.map oldInfo
| i :: referree, j :: referrer =>
    if i.index = j.index then
      ⟨i.index, updateState i.state j.state⟩ ::
        mergeInfos alreadyVisited referree referrer
    else if i.index < j.index then
      oldInfo i ::
        mergeInfos alreadyVisited referree (j :: referrer)
    else
      newInfo alreadyVisited j ::
        mergeInfos alreadyVisited (i :: referree) referrer
termination_by referree referrer =>
  referree.length + referrer.length

def alreadyVisited (referree : TagInfoArray) : Bool :=
  match referree.infos with
  | [] => true
  | info :: _ => isAlreadyVisited info.state

def merge
    (referree referrer : TagInfoArray) : TagInfoArray :=
  filled
    (mergeInfos referree.alreadyVisited referree.infos
      referrer.infos)

/- The size of the buffer that the constructor allocates. -/
def newArraySize : List TagInfo → List TagInfo → Nat
| [], referrer => referrer.length
| referree, [] => referree.length
| i :: referree, j :: referrer =>
    if i.index = j.index then
      newArraySize referree referrer + 1
    else if i.index < j.index then
      newArraySize referree (j :: referrer) + 1
    else
      newArraySize (i :: referree) referrer + 1
termination_by referree referrer =>
  referree.length + referrer.length

def getNewArraySize
    (referree referrer : TagInfoArray) : Nat :=
  newArraySize referree.infos referrer.infos % querySize

theorem length_mergeInfos
    (alreadyVisited : Bool)
    (referree referrer : List TagInfo) :
    (mergeInfos alreadyVisited referree referrer).length =
      newArraySize referree referrer := by
  induction referree, referrer using newArraySize.induct with
  | case1 referrer => simp [mergeInfos, newArraySize]
  | case2 referree hNe =>
      cases referree with
      | nil => exact absurd rfl hNe
      | cons i referree => simp [mergeInfos, newArraySize]
  | case3 i referree j referrer hEq ih =>
      simp [mergeInfos, newArraySize, hEq, ih]
  | case4 i referree j referrer hNe hLt ih =>
      simp [mergeInfos, newArraySize, hNe, hLt, ih]
  | case5 i referree j referrer hNe hLt ih =>
      simp [mergeInfos, newArraySize, hNe, hLt, ih]

/- The buffer of a merged array has the allocated size. -/
theorem getNewArraySize_eq
    (referree referrer : TagInfoArray) :
    (referree.merge referrer).getSize =
      getNewArraySize referree referrer := by
  unfold merge filled getSize getNewArraySize
  rw [List.length_drop, length_mergeInfos]
  have hDiv :=
    Nat.div_add_mod
      (newArraySize referree.infos referrer.infos) querySize
  rw [Nat.mul_comm] at hDiv
  omega

/- The loop of `shouldMerge` and what follows it. -/
def newForReferree : List TagInfo → List TagInfo → Bool
| _, [] => false
| [], _ :: _ => true
| i :: referree, j :: referrer =>
    if i.index = j.index then
      if i.state = j.state then
        newForReferree referree referrer
      else
        true
    else if i.index < j.index then
      newForReferree referree (j :: referrer)
    else
      true

def shouldMerge
    (referree referrer : TagInfoArray) : Bool :=
  if referrer.getSize > referree.getSize then
    true
  else
    newForReferree referree.infos referrer.infos

end TagInfoArray

end SizesTags

end MemoryAgent
