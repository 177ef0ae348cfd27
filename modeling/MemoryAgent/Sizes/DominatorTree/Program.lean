import MemoryAgent.Containers.Vector
import MemoryAgent.Jvmti.Heap

/-
  `calculateRetainedSizesViaDominatorTree`.

  The vertices of a graph are the indices of its adjacency
  lists, and vertex 0 is the root.  A computation without
  result has read or written outside a vector, or its fuel
  has run out: fuel bounds the depth of the recursions and
  the number of leaves taken from the queue.

  Vertices and counters are below the number of vertices,
  but the sizes are arbitrary, and the computation only adds
  them up: their type is a parameter.  It is `Int64` in the
  source, whose sums wrap around.

  Key definitions include:
    * `DominatorTree.compress`
    * `DominatorTree.dfs`
    * `DominatorTree.mainLoop`
    * `DominatorTree.correctionLoop`
    * `DominatorTree.leafLoop`
    * `DominatorTree.calculateRetainedSizesViaDominatorTree`
-/

------------------------------------------------------------
-- The Forest
------------------------------------------------------------

namespace MemoryAgent

namespace DominatorTree

open StdVector

abbrev jlongs :=
  List jlong

abbrev graph_t :=
  List jlongs

/- The vectors that `link` and `compress` write. -/
structure Forest where
  ancestor : jlongs
  label : jlongs

def link
    (v w : jlong)
    (s : Forest) : Option Forest := do
  let ancestor ← write s.ancestor w v
  some { s with ancestor := ancestor }

def compress
    (semi : jlongs) :
    Nat → jlong → Forest → Option Forest
| 0, _, _ => none
| fuel + 1, v, s => do
    let a ← read s.ancestor v
    let next ← read s.ancestor a
    if next ≠ -1 then
      let s ← compress semi fuel a s
      let a ← read s.ancestor v
      let labelA ← read s.label a
      let labelV ← read s.label v
      let semiA ← read semi labelA
      let semiV ← read semi labelV
      let label ←
        if semiA < semiV then
          write s.label v labelA
        else
          some s.label
      let next ← read s.ancestor a
      let ancestor ← write s.ancestor v next
      some ⟨ancestor, label⟩
    else
      some s

def eval
    (semi : jlongs)
    (fuel : Nat)
    (v : jlong)
    (s : Forest) : Option (jlong × Forest) := do
  let a ← read s.ancestor v
  if a = -1 then
    some (v, s)
  else
    let s ← compress semi fuel v s
    let u ← read s.label v
    some (u, s)

------------------------------------------------------------
-- Depth-First Search
------------------------------------------------------------

/- The counter and the vectors that `dfs` writes. -/
structure Numbering where
  n : jlong
  semi : jlongs
  parent : jlongs
  vertex : jlongs
  pred : graph_t

/- The test `w != 0 && semi[w] == 0`. -/
def isNew
    (w : jlong)
    (s : Numbering) : Option Bool :=
  if w ≠ 0 then do
    let semiW ← read s.semi w
    some (decide (semiW = 0))
  else
    some false

/- The body of the loop over the successors `w` of `v`. -/
def visitEdge
    (search : jlong → Numbering → Option Numbering)
    (v : jlong)
    (s : Numbering)
    (w : jlong) : Option Numbering := do
  let new ← isNew w s
  let s ←
    if new = true then do
      let parent ← write s.parent w v
      search w { s with parent := parent }
    else
      some s
  let predW ← read s.pred w
  let pred ← write s.pred w (predW ++ [v])
  some { s with pred := pred }

def dfs
    (graph : graph_t) :
    Nat → jlong → Numbering → Option Numbering
| 0, _, _ => none
| fuel + 1, v, s => do
    let semi ← write s.semi v s.n
    let vertex ← write s.vertex s.n v
    let successors ← read graph v
    successors.foldlM (visitEdge (dfs graph fuel) v)
      { s with semi := semi, vertex := vertex, n := s.n + 1 }

------------------------------------------------------------
-- Semidominators
------------------------------------------------------------

/- The vectors that the main loop writes. -/
structure Dominators where
  semi : jlongs
  forest : Forest
  bucket : graph_t
  dom : jlongs

/- One predecessor `v` of `w`. -/
def visitPred
    (fuel : Nat)
    (w : jlong)
    (s : Dominators)
    (v : jlong) : Option Dominators := do
  let (u, forest) ← eval s.semi fuel v s.forest
  let semiU ← read s.semi u
  let semiW ← read s.semi w
  let semi ←
    if semiU < semiW then
      write s.semi w semiU
    else
      some s.semi
  some { s with semi := semi, forest := forest }

/- One vertex `v` in the bucket of the vertex `p`. -/
def visitBucket
    (fuel : Nat)
    (p : jlong)
    (s : Dominators)
    (v : jlong) : Option Dominators := do
  let (u, forest) ← eval s.semi fuel v s.forest
  let semiU ← read s.semi u
  let semiV ← read s.semi v
  let dom ← write s.dom v (if semiU < semiV then u else p)
  some { s with dom := dom, forest := forest }

def mainStep
    (fuel : Nat)
    (r : Numbering)
    (i : jlong)
    (s : Dominators) : Option Dominators := do
  let w ← read r.vertex i
  let predW ← read r.pred w
  let s ← predW.foldlM (visitPred fuel w) s
  let semiW ← read s.semi w
  let x ← read r.vertex semiW
  let bucketX ← read s.bucket x
  let bucket ← write s.bucket x (bucketX ++ [w])
  let p ← read r.parent w
  let forest ← link p w s.forest
  let bucketP ← read bucket p
  let s ←
    bucketP.foldlM (visitBucket fuel p)
      { s with bucket := bucket, forest := forest }
  let bucket ← write s.bucket p []
  some { s with bucket := bucket }

/- The loop over `i` down to 1. -/
def mainLoop
    (fuel : Nat)
    (r : Numbering) :
    Nat → Dominators → Option Dominators
| 0, s => some s
| i + 1, s => do
    let s ← mainStep fuel r (i + 1 : Nat) s
    mainLoop fuel r i s

------------------------------------------------------------
-- Accumulation
------------------------------------------------------------

/- The dominators and the numbers of their children. -/
structure Children where
  dom : jlongs
  childCount : jlongs

def correctDom
    (vertex semi : jlongs)
    (w : jlong)
    (dom : jlongs) : Option jlongs := do
  let domW ← read dom w
  let semiW ← read semi w
  let x ← read vertex semiW
  if domW ≠ x then
    let d ← read dom domW
    write dom w d
  else
    some dom

def countChild
    (d : jlong)
    (childCount : jlongs) : Option jlongs :=
  if 0 ≤ d then do
    let count ← read childCount d
    write childCount d (count + 1)
  else
    some childCount

def correctionStep
    (vertex semi : jlongs)
    (s : Children)
    (i : jlong) : Option Children := do
  let w ← read vertex i
  let dom ← correctDom vertex semi w s.dom
  let domW ← read dom w
  let childCount ← countChild domW s.childCount
  some ⟨dom, childCount⟩

/- The values of a loop variable from 1 to below `n`. -/
def fromOne (n : jlong) : List jlong :=
  (List.range (n - 1).toNat).map
    (fun (k : Nat) => (k : jlong) + 1)

def correctionLoop
    (vertex semi : jlongs)
    (n : jlong)
    (s : Children) : Option Children :=
  (fromOne n).foldlM (correctionStep vertex semi) s

/- The queue filled with the vertices without children. -/
def initialLeaves
    (n : jlong)
    (childCount : jlongs) : Option (List jlong) :=
  (fromOne n).foldlM
    (fun leaves i => do
      let count ← read childCount i
      some (if count = 0 then leaves ++ [i] else leaves))
    []

/- The queue and the vectors that its loop writes. -/
structure Accumulation (Size : Type) where
  leaves : List jlong
  childCount : jlongs
  retainedSizes : List Size

section Sizes

variable {Size : Type}

def leafStep
    [Add Size]
    (dom : jlongs)
    (leaf : jlong)
    (s : Accumulation Size) :
    Option (Accumulation Size) := do
  let d ← read dom leaf
  if 0 ≤ d then
    let sizeD ← read s.retainedSizes d
    let sizeL ← read s.retainedSizes leaf
    let sizes ← write s.retainedSizes d (sizeD + sizeL)
    let count ← read s.childCount d
    let childCount ← write s.childCount d (count - 1)
    some ⟨if count - 1 = 0 then s.leaves ++ [d] else s.leaves,
      childCount, sizes⟩
  else
    some s

def leafLoop
    [Add Size]
    (dom : jlongs) :
    Nat → Accumulation Size → Option (Accumulation Size)
| 0, _ => none
| fuel + 1, s =>
    match s.leaves with
    | [] => some s
    | leaf :: leaves => do
        let s ← leafStep dom leaf { s with leaves := leaves }
        leafLoop dom fuel s

/- The first loop, which copies the sizes. -/
def copySizes
    (n : Nat)
    (sizes : List Size) : Option (List Size) :=
  (List.range n).mapM (fun (i : Nat) => read sizes i)

end Sizes

------------------------------------------------------------
-- Retained Sizes
------------------------------------------------------------

def zeros (n : Nat) : jlongs :=
  List.replicate n 0

/- The vectors before the search. -/
def initialNumbering (n : Nat) : Numbering where
  n := 0
  semi := zeros n
  parent := zeros n
  vertex := zeros n
  pred := List.replicate n []

def initialForest (n : Nat) : Forest where
  ancestor := List.replicate n (-1)
  label := (List.range n).map (fun (i : Nat) => (i : jlong))

def initialDominators
    (n : Nat)
    (semi : jlongs) : Dominators where
  semi := semi
  forest := initialForest n
  bucket := List.replicate n []
  dom := zeros n

/- The part up to the end of the correction loop. -/
def dominators
    (fuel : Nat)
    (graph : graph_t) : Option (Numbering × Children) := do
  let r ←
    dfs graph fuel 0 (initialNumbering graph.length)
  let s ←
    mainLoop fuel r (r.n - 1).toNat
      (initialDominators graph.length r.semi)
  let dom ← write s.dom 0 (-1)
  let c ←
    correctionLoop r.vertex s.semi r.n
      ⟨dom, zeros r.n.toNat⟩
  some (r, c)

def calculateRetainedSizesViaDominatorTree
    {Size : Type}
    [Add Size]
    (fuel : Nat)
    (graph : graph_t)
    (sizes : List Size) : Option (List Size) := do
  let retainedSizes ← copySizes graph.length sizes
  let (r, c) ← dominators fuel graph
  let leaves ← initialLeaves r.n c.childCount
  let s ←
    leafLoop c.dom fuel ⟨leaves, c.childCount, retainedSizes⟩
  some s.retainedSizes

end DominatorTree

end MemoryAgent
