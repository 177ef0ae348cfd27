import MemoryAgent.Roots.GcTags
import MemoryAgent.Roots.Paths

/-
  The action that reports paths from the closest roots to an
  object: it collects back references, searches them, and
  translates tags back to objects.

  Key definitions include:
    * `Roots.Outcome`
    * `Roots.createResultObject`
    * `Roots.executeOperation`
    * `Roots.Answered`
    * `Roots.Real`
-/

------------------------------------------------------------
-- Results
------------------------------------------------------------

namespace MemoryAgent

namespace Roots

open ClosestGcRoots

/- One entry of the three arrays about the links to it. -/
structure Link where
  prevIndex : Int
  refKind : HeapReferenceKind
  refInfo : ReferenceDetail
deriving DecidableEq, Repr

structure Result (O : Type) where
  objects : List O
  links : List (List Link)
  weakSoftReachable : List Bool
deriving DecidableEq, Repr

/- Of the objects with one tag, the last one has the index. -/
def getTagToIndex
    {O : Type}
    (objectToTag : List (O × jlong)) : jlong → Option Nat :=
  objectToTag.zipIdx.foldl
    (fun tagToIndex entry =>
      Function.update tagToIndex entry.1.2 (some entry.2))
    (fun _ => none)

/- References from tags without index are left out. -/
def createLinksInfos
    (tagToIndex : jlong → Option Nat)
    (infos : List ReferenceInfo) : List Link :=
  infos.filterMap (fun info =>
    if info.tag = rootTag then
      some ⟨-1, info.kind, info.detail⟩
    else
      (tagToIndex info.tag).map
        (fun (i : Nat) => ⟨i, info.kind, info.detail⟩))

/-
  `infos` are the references shown for a tag.  The agent
  crashes on a tag without any.
-/
def createResultObject
    {O : Type}
    (m : Addresses)
    (tags : GcTags)
    (objectToTag : List (O × jlong))
    (infos : Infos) : Option (Result O) := do
  let tagToIndex := getTagToIndex objectToTag
  let links ←
    objectToTag.mapM (fun entry =>
      (infos entry.2).map (createLinksInfos tagToIndex))
  let weakSoftReachable ←
    objectToTag.mapM (fun entry =>
      (tags.pointerToGcTag m entry.2).map
        GcTag.isWeakSoftReachable)
  some ⟨objectToTag.map Prod.fst, links, weakSoftReachable⟩

------------------------------------------------------------
-- The Action
------------------------------------------------------------

section Action

variable {O : Type}
variable [DecidableEq O]

/-
  What is known when the objects of the result are asked for:
  the tags of the objects and their memory, and the paths, if
  a root was found.
-/
structure Outcome (O : Type) where
  tag : O → jlong
  tags : GcTags
  start : jlong
  paths : Option Paths

namespace Outcome

/- The tags in the question for the objects. -/
def requested (c : Outcome O) : List jlong :=
  match c.paths with
  | none => [c.start]
  | some paths =>
      List.replicate paths.nodesToPathNum.length 0 ++
        paths.tags

/- `tagToPathNumber` -/
def pathNumber (c : Outcome O) : jlong → Nat :=
  match c.paths with
  | none => fun _ => 0
  | some paths =>
      paths.nodesToPathNum.foldl
        (fun tagToPathNumber node =>
          Function.update tagToPathNumber node.1 node.2)
        (fun _ => 0)

/- The references that are shown for a tag. -/
def infos
    (m : Addresses)
    (c : Outcome O) : Infos :=
  match c.paths with
  | none => c.tags.backRefs m
  | some paths => paths.tagToInfos

end Outcome

/-
  Collect the back references and search them.  The fuel
  bounds the iterations of the loops.  The tags on the paths
  were read by the search before (`read_of_searchTags`).
-/
def collectPathsToClosestGcRoots
    (h : Heap O)
    (m : Addresses)
    (refClasses : List O)
    (target : O)
    (pathsNumber objectsNumber : Int32)
    (tags : GcTags)
    (reports : List (Report O))
    (fuel : Nat) : Option (Outcome O) := do
  let (start, s) :=
    createTags h m refClasses target tags reports
  let tags ← s.user
  let found ←
    searchTags (tags.backRefs m) start pathsNumber fuel
  if found.foundRoots = [] then
    some ⟨s.tag, tags, start, none⟩
  else
    let paths ←
      createPaths (tags.recorded m) found.prevTag start
        objectsNumber fuel found.foundRoots
    some ⟨s.tag, tags, start, some paths⟩

/-
  `objects` are the objects that JVMTI returns for the tags,
  in the order in which they are sorted.
-/
def executeOperation
    (h : Heap O)
    (m : Addresses)
    (refClasses : List O)
    (target : O)
    (pathsNumber objectsNumber : Int32)
    (tags : GcTags)
    (reports : List (Report O))
    (objects : List O)
    (fuel : Nat) : Option (Result O) := do
  let c ←
    collectPathsToClosestGcRoots h m refClasses target
      pathsNumber objectsNumber tags reports fuel
  createResultObject m c.tags
    (objects.map (fun o => (o, c.tag o))) (c.infos m)

/- The objects are an answer, sorted by path numbers. -/
structure Answered
    (c : Outcome O)
    (objects : List O) : Prop where
  tagged :
    Heap.ObjectsWithTags (⟨c.tag, ()⟩ : Tagged O jlong Unit)
      c.requested objects
  sorted :
    objects.Pairwise (fun a b =>
      c.pathNumber (c.tag a) ≤ c.pathNumber (c.tag b))

end Action

------------------------------------------------------------
-- Real Results
------------------------------------------------------------

section Real

variable {O : Type}

/- The link shows the reference `r`. -/
def Link.Shows
    (link : Link)
    (r : Reference O) : Prop :=
  link.refKind = r.kind ∧
    link.refInfo =
      (createReferenceInfo rootTag r.kind r.info).detail

/- A link of the object at `i` has the index `j`. -/
def Result.LinksTo
    (result : Result O)
    (i j : Nat) : Prop :=
  ∃ links, result.links[i]? = some links ∧
    ∃ link ∈ links, link.prevIndex = j

def Result.HasRootLink
    (result : Result O)
    (i : Nat) : Prop :=
  ∃ links, result.links[i]? = some links ∧
    ∃ link ∈ links, link.prevIndex = -1

/-
  The object at `i` lies on a chain of links from the target
  to a root, or is the target, if no chain is reported.
-/
def Result.OnPath
    (target : O)
    (result : Result O)
    (i : Nat) : Prop :=
  ∃ t : Nat,
    result.objects[t]? = some target ∧
      Relation.ReflTransGen result.LinksTo t i ∧
      (result.objects = [target] ∨
        ∃ k, Relation.ReflTransGen result.LinksTo i k ∧
          result.HasRootLink k)

/-
  Every link shows a reference to its object: one of a root,
  or one that the object at the previous index holds.  Every
  object lies on a reported path.
-/
structure Real
    (h : Heap O)
    (target : O)
    (result : Result O) : Prop where
  parallel : result.links.length = result.objects.length
  rootLinks :
    ∀ (i : Nat) o links,
      result.objects[i]? = some o →
        result.links[i]? = some links →
          ∀ link ∈ links, link.prevIndex = -1 →
            ∃ r ∈ h.roots, r.referee = o ∧ link.Shows r
  heldLinks :
    ∀ (i : Nat) o links,
      result.objects[i]? = some o →
        result.links[i]? = some links →
          ∀ link ∈ links,
            link.refKind ≠ .memoryAgentTruncate →
              link.prevIndex ≠ -1 →
                ∃ (j : Nat) (p : O),
                  link.prevIndex = j ∧
                    result.objects[j]? = some p ∧
                      ∃ r ∈ h.references p,
                        r.referee = o ∧ link.Shows r
  onPath :
    ∀ i, i < result.objects.length →
      result.OnPath target i

end Real

end Roots

end MemoryAgent
