import MemoryAgent.Jvmti.InputArray
import MemoryAgent.Sizes.DominatorTree.Program

/-
  Retained sizes by way of a dominator tree: of listed
  objects, and of the instances of a class.

  The first traversal marks what the roots reach around the
  listed objects.  The second one goes out from the array of
  these objects and builds a graph of the rest, in which
  vertex 0 stands for everything marked.

  Key definitions include:
    * `ViaDominatorTree.HeapDumpInfo`
    * `ViaDominatorTree.firstTraversal`
    * `ViaDominatorTree.secondTraversal`
    * `ViaDominatorTree.calculateRetainedSizes`
    * `ViaDominatorTree.RetainedSizesViaDominatorTreeAction`
    * `ViaDominatorTree.RetainedSizesByClassAction`
-/

------------------------------------------------------------
-- The Heap Dump
------------------------------------------------------------

namespace MemoryAgent

namespace ViaDominatorTree

open StdVector DominatorTree

def visitedTag : jlong := -1

def mockReferrerTag : jlong := -2

def classTag : jlong := -3

def objectOfClassTag : jlong := -4

/- A `jlong` converted to `size_t`. -/
def toSizeT (n : jlong) : Nat :=
  if n < 0 then (n + 2 ^ 64).toNat else n.toNat

/- `SizesViaDominatorTreeHeapDumpInfo` -/
structure HeapDumpInfo where
  graph : graph_t
  sizes : jlongs
  wasVisitedDuringFirstTraversal : List Bool
  lastStartTag : jlong
  currentTag : jlong
deriving DecidableEq

namespace HeapDumpInfo

def initial : HeapDumpInfo where
  graph := [[]]
  sizes := [0]
  wasVisitedDuringFirstTraversal := []
  lastStartTag := 1
  currentTag := 1

/- A new vertex; the tag of its object is the old counter. -/
def addNewVertex
    (size : jlong)
    (info : HeapDumpInfo) : jlong × HeapDumpInfo :=
  (info.currentTag,
    { info with
      sizes := info.sizes ++ [size]
      graph := info.graph ++ [[]]
      currentTag := info.currentTag + 1 })

/- The error is the text of the exception. -/
def addNeighbour
    (parent neighbour : jlong)
    (info : HeapDumpInfo) : Except String HeapDumpInfo :=
  if info.graph.length ≤ toSizeT parent then
    .error "Parent number exceeds graph size"
  else
    .ok { info with
      graph :=
        info.graph.modify (toSizeT parent)
          (fun neighbours => neighbours ++ [neighbour]) }

def visitStartVertex
    (vertex : jlong)
    (info : HeapDumpInfo) : Except String HeapDumpInfo :=
  if info.wasVisitedDuringFirstTraversal.length ≤
      toSizeT vertex then
    .error "Vertex number exceeds number of start vertices"
  else
    .ok { info with
      wasVisitedDuringFirstTraversal :=
        info.wasVisitedDuringFirstTraversal.set
          (toSizeT vertex) true }

/- One start tag in the loop over the start tags. -/
def setUpNeighbour
    (info : HeapDumpInfo)
    (i : jlong) : Option HeapDumpInfo := do
  let wasVisited ←
    read info.wasVisitedDuringFirstTraversal i
  if wasVisited = true then
    let neighbours ← read info.graph 0
    let graph ← write info.graph 0 (neighbours ++ [i])
    some { info with graph := graph }
  else
    some info

def setUpNeighboursForMasterNode
    (info : HeapDumpInfo) : Option HeapDumpInfo :=
  (fromOne (info.lastStartTag + 1)).foldlM setUpNeighbour
    info

end HeapDumpInfo

------------------------------------------------------------
-- Callbacks
------------------------------------------------------------

/-
  The data of the callbacks.  An exception of a callback
  ends the traversal.
-/
abbrev UserData :=
  Except String HeapDumpInfo

def collectObjects : HeapReferenceCallback jlong Unit :=
  fun args userData =>
    if args.refKind.isJni then
      (args.tag, userData, .skip)
    else if args.classTag = classTag then
      (objectOfClassTag, userData, .visit)
    else
      (args.tag, userData, .visit)

def firstTraversal : HeapReferenceCallback jlong UserData :=
  fun args userData =>
    match userData with
    | .error message => (args.tag, .error message, .stop)
    | .ok info =>
        if args.refKind.isJni then
          (args.tag, .ok info, .skip)
        else if args.tag = 0 then
          (visitedTag, .ok info, .visit)
        else if args.tag ≤ info.lastStartTag then
          if 0 < args.tag then
            match info.visitStartVertex args.tag with
            | .error message =>
                (args.tag, .error message, .stop)
            | .ok info => (args.tag, .ok info, .skip)
          else
            (args.tag, .ok info, .skip)
        else
          (args.tag, .ok info, .visit)

/-
  The traversal starts from an object, so that a referrer is
  never absent.  Adding a vertex writes the tag before the
  referrer's tag is read.
-/
def secondTraversal : HeapReferenceCallback jlong UserData :=
  fun args userData =>
    match userData, args.referrerTag with
    | .error message, _ =>
        (args.tag, .error message, .stop)
    | .ok _, none => (args.tag, .error "null pointer", .stop)
    | .ok info, some referrerTag =>
        if referrerTag = mockReferrerTag then
          (args.tag, .ok info, .visit)
        else if args.tag = visitedTag ∨
            args.refKind.isJni = true then
          (args.tag, .ok info, .skip)
        else if args.tag = 0 then
          let (tag, info) := info.addNewVertex args.size
          let parent :=
            if args.selfReference then tag else referrerTag
          match info.addNeighbour parent tag with
          | .error message => (tag, .error message, .stop)
          | .ok info => (tag, .ok info, .visit)
        else
          match info.addNeighbour referrerTag args.tag with
          | .error message =>
              (args.tag, .error message, .stop)
          | .ok info => (args.tag, .ok info, .skip)

------------------------------------------------------------
-- Retained Sizes
------------------------------------------------------------

section Calculation

variable {N : Type}
variable [DecidableEq N]

/- The body of the loop over the elements of the array. -/
def initAndSetTag
    (h : Heap N)
    (s : Tagged N jlong HeapDumpInfo)
    (object : N) : Tagged N jlong HeapDumpInfo :=
  if s.tag object ≠ 0 ∧ s.tag object ≠ objectOfClassTag then
    s
  else
    let (tag, info) := s.user.addNewVertex (h.size object)
    { s.setTag object tag with user := info }

def initAndSetTagsForObjects
    (h : Heap N)
    (objects : List N)
    (tag : N → jlong) : Tagged N jlong HeapDumpInfo :=
  let s :=
    objects.foldl (initAndSetTag h)
      ⟨tag, HeapDumpInfo.initial⟩
  { s with
    user :=
      { s.user with
        lastStartTag := s.user.currentTag - 1
        wasVisitedDuringFirstTraversal :=
          List.replicate s.user.currentTag.toNat false } }

/- The tags before the traversals. -/
def tagObjects
    (h : Heap N)
    (array : N)
    (objects : List N)
    (tag : N → jlong) : Tagged N jlong HeapDumpInfo :=
  (initAndSetTagsForObjects h objects tag).setTag array
    mockReferrerTag

def traverseFirst
    (h : Heap N)
    (s : Tagged N jlong HeapDumpInfo)
    (first : List (Report N)) : Tagged N jlong UserData :=
  h.followReferences none firstTraversal ⟨s.tag, .ok s.user⟩
    first

def traverseSecond
    (h : Heap N)
    (array : N)
    (s : Tagged N jlong UserData)
    (second : List (Report N)) : Tagged N jlong UserData :=
  h.followReferences (some array) secondTraversal s second

/- The tags, the heap dump and the sizes of its vertices. -/
structure Calculation (N : Type) where
  tag : N → jlong
  info : HeapDumpInfo
  retainedSizes : jlongs

/-
  `first` and `second` are the orders of the two traversals.
  The fuel of the dominator tree is one more than the number
  of vertices.
-/
def calculateRetainedSizes
    (h : Heap N)
    (array : N)
    (objects : List N)
    (tag : N → jlong)
    (first second : List (Report N)) :
    Option (Calculation N) :=
  let start := tagObjects h array objects tag
  let s :=
    traverseSecond h array (traverseFirst h start first)
      second
  match s.user with
  | .error _ => none
  | .ok info => do
      let info ← info.setUpNeighboursForMasterNode
      let retainedSizes ←
        calculateRetainedSizesViaDominatorTree
          (info.graph.length + 1) info.graph info.sizes
      some ⟨s.tag, info, retainedSizes⟩

/- Both orders are ones in which JVMTI may report. -/
structure Traversed
    (h : Heap N)
    (array : N)
    (objects : List N)
    (tag : N → jlong)
    (first second : List (Report N)) : Prop where
  first_complete :
    h.FollowReferences none firstTraversal
      ⟨(tagObjects h array objects tag).tag,
        .ok (tagObjects h array objects tag).user⟩
      first
  second_complete :
    h.FollowReferences (some array) secondTraversal
      (traverseFirst h (tagObjects h array objects tag)
        first)
      second

def Calculation.retainedSize
    (c : Calculation N)
    (object : N) : Option jlong :=
  read c.retainedSizes (c.tag object)

def Calculation.shallowSize
    (c : Calculation N)
    (object : N) : Option jlong :=
  read c.info.sizes (c.tag object)

end Calculation

------------------------------------------------------------
-- Retained Sizes of Objects
------------------------------------------------------------

namespace RetainedSizesViaDominatorTreeAction

variable {O : Type}
variable [DecidableEq O]

structure Result where
  shallowSizes : jlongs
  retainedSizes : jlongs
deriving DecidableEq

def constructResultObject
    (objects : List O)
    (c : Calculation (Option O)) : Option Result := do
  let retainedSizes ←
    objects.mapM (fun o => c.retainedSize (some o))
  let shallowSizes ←
    objects.mapM (fun o => c.shallowSize (some o))
  some ⟨shallowSizes, retainedSizes⟩

/- The calculation on a heap without tags. -/
def calculate
    (h : Heap O)
    (array : InputArray O)
    (first second : List (Report (Option O))) :
    Option (Calculation (Option O)) :=
  calculateRetainedSizes (array.heap h) none
    (array.elements.map some) (fun _ => 0) first second

def executeOperation
    (h : Heap O)
    (array : InputArray O)
    (first second : List (Report (Option O))) :
    Option Result := do
  let c ← calculate h array first second
  constructResultObject array.elements c

def Uninterrupted
    (h : Heap O)
    (array : InputArray O)
    (first second : List (Report (Option O))) : Prop :=
  Traversed (array.heap h) none (array.elements.map some)
    (fun _ => 0) first second

end RetainedSizesViaDominatorTreeAction

------------------------------------------------------------
-- Retained Sizes of the Instances of a Class
------------------------------------------------------------

namespace RetainedSizesByClassAction

variable {O : Type}
variable [DecidableEq O]

structure Result (O : Type) where
  objects : List O
  shallowSizes : jlongs
  retainedSizes : jlongs
deriving DecidableEq

/-
  What JVMTI and the sorting algorithm decide in a run: the
  orders of the three traversals, the instances in the array
  made for them, and their sorted list.
-/
structure Run (O : Type) where
  collect : List (Report O)
  array : InputArray O
  first : List (Report (Option O))
  second : List (Report (Option O))
  sorted : List O

/- The comparison that the instances are sorted by. -/
def greater
    (c : Calculation (Option O))
    (a b : O) : Bool :=
  match c.retainedSize (some a), c.retainedSize (some b) with
  | some sizeA, some sizeB => decide (sizeA > sizeB)
  | _, _ => false

def tagClass (classRef : O) : Tagged O jlong Unit :=
  Tagged.setTag ⟨fun _ => 0, ()⟩ classRef classTag

/- The tags after the instances are collected. -/
def collected
    (h : Heap O)
    (classRef : O)
    (collect : List (Report O)) : Tagged O jlong Unit :=
  h.followReferences none collectObjects (tagClass classRef)
    collect

/- The tags before the instances are numbered. -/
def tagBefore
    (h : Heap O)
    (classRef : O)
    (collect : List (Report O)) : Option O → jlong
| none => 0
| some o =>
    ((collected h classRef collect).setTag classRef 0).tag o

def calculate
    (h : Heap O)
    (classRef : O)
    (run : Run O) : Option (Calculation (Option O)) :=
  calculateRetainedSizes (run.array.heap h) none
    (run.array.elements.map some)
    (tagBefore h classRef run.collect) run.first run.second

def constructResultObject
    (objectsOfClass : List O)
    (c : Calculation (Option O))
    (objectsLimit : jlong) : Option (Result O) := do
  let size := min (toSizeT objectsLimit) objectsOfClass.length
  let objects := objectsOfClass.take size
  let retainedSizes ←
    objects.mapM (fun o => c.retainedSize (some o))
  let shallowSizes ←
    objects.mapM (fun o => c.shallowSize (some o))
  some ⟨objects, shallowSizes, retainedSizes⟩

def executeOperation
    (h : Heap O)
    (classRef : O)
    (objectsLimit : jlong)
    (run : Run O) : Option (Result O) := do
  let c ← calculate h classRef run
  constructResultObject run.sorted c objectsLimit

/- The run is one that JVMTI and the sorting may decide on. -/
structure Uninterrupted
    (h : Heap O)
    (classRef : O)
    (run : Run O) : Prop where
  collect_complete :
    h.FollowReferences none collectObjects
      (tagClass classRef) run.collect
  objectsOfClass :
    Heap.ObjectsWithTags
      (collected h classRef run.collect)
      [objectOfClassTag] run.array.elements
  traversed :
    Traversed (run.array.heap h) none
      (run.array.elements.map some)
      (tagBefore h classRef run.collect)
      run.first run.second
  sorted_perm : run.sorted.Perm run.array.elements
  sorted_pairwise :
    ∀ c, calculate h classRef run = some c →
      run.sorted.Pairwise (fun a b => greater c b a = false)

end RetainedSizesByClassAction

end ViaDominatorTree

end MemoryAgent
