import MemoryAgent.Actions.DominatorExecutions
import MemoryAgent.Actions.PathExecutions

/-
  Requests one after another, while the heap changes between
  them.  They share the tags on the objects and the memory
  of the tags; each has its own clock and cancellation file,
  and may be cut short anywhere.

  Key definitions include:
    * `Sessions.Agent`
    * `Sessions.Exchange`
    * `Sessions.Serves`
    * `Sessions.ServesAll`
    * `Sessions.NoneStale`
    * `Sessions.Answers`

  Main results:
    * `Sessions.Clean.serves`
    * `Sessions.requests_isolated`
-/

------------------------------------------------------------
-- Requests
------------------------------------------------------------

namespace MemoryAgent

namespace Actions

namespace Sessions

open Calls
open Roots (Addresses GcTags)

/- The requests whose executions are on a heap. -/
inductive Request (O : Type) where
  | size (object : O)
  | getShallowAndRetainedSizesByObjects
      (array : InputArray O)
  | findPathsToClosestGcRoots
      (q : PathsToClosestGcRootsAction.Query O)

/- What is packed into the Java arrays. -/
inductive Value (O : Type) where
  | sizes (data : RetainedSizeAndHeldObjectsAction.Sizes O)
  | lists
      (result :
        Option
          ViaDominatorTree.RetainedSizesViaDominatorTreeAction.Result)
  | paths (result : Option (Roots.Result O))

/-
  A request and the answer to it.  The readings are those of
  the clock and of the file while it is served.
-/
structure Exchange (O : Type) where
  heap : Heap O
  finishTime : Int
  readings : Nat → CancellationChecker.Reading
  stays :
    ∀ n,
      ((readings n).fileExists ||
          decide (finishTime < (readings n).now)) = true →
        ((readings (n + 1)).fileExists ||
          decide (finishTime < (readings (n + 1)).now)) =
            true
  request : Request O
  errorCode : ErrorCode
  value : Value O

namespace Exchange

variable {O : Type}

def world (e : Exchange O) : World Call :=
  worldOf e.finishTime e.readings e.stays

end Exchange

/-
  What is left from one request to the next one.  The memory
  of the tags is absent after a crash.
-/
structure Agent (O : Type) where
  tag : O → jlong
  tags : Option GcTags

namespace Agent

/- Before the first request. -/
def initial (O : Type) : Agent O :=
  ⟨fun _ => 0, some GcTags.initial⟩

end Agent

variable {O : Type}

/- The array is a new object. -/
def withArray (tag : O → jlong) : Option O → jlong
| none => 0
| some o => tag o

variable [DecidableEq O]

/-
  The request is served by an execution of its action.  The
  variables of the action are new ones.
-/
def Serves
    (m : Addresses)
    (a : Agent O)
    (e : Exchange O)
    (a' : Agent O) : Prop :=
  ∃ numbers n, e.errorCode = getErrorCode e.world n ∧
    match e.request with
    | .size object =>
        ∃ retainedSize shallowSize t,
          Executes
            (meaning e.heap e.readings
              (RetainedSizeAndHeldObjectsAction.Effect e.heap
                object)
              (RetainedSizeAndHeldObjectsAction.walks object))
            e.world.stops
            RetainedSizeAndHeldObjectsAction.operation 0
            ⟨⟨a.tag, ⟨retainedSize, shallowSize, []⟩⟩,
              .initial e.finishTime⟩
            numbers n t ∧
          e.value = .sizes t.values.user ∧
          a' = ⟨t.values.tag, a.tags⟩
    | .getShallowAndRetainedSizesByObjects array =>
        ∃ (fresh : List Bool) (t : Variables _ _),
          fresh.length = array.elements.length ∧
          Executes
            (meaning (array.heap e.heap) e.readings
              (RetainedSizesViaDominatorTreeAction.Effect
                (array.heap e.heap) none
                (array.elements.map some) fresh)
              (RetainedSizesViaDominatorTreeAction.walks
                none))
            e.world.stops
            (RetainedSizesViaDominatorTreeAction.operation
              fresh)
            0
            ⟨RetainedSizesViaDominatorTreeAction.dumped
                ⟨withArray a.tag,
                  ViaDominatorTree.HeapDumpInfo.initial⟩
                (some ⟨[], []⟩),
              .initial e.finishTime⟩
            numbers n t ∧
          e.value = .lists t.values.user.result ∧
          a' = ⟨fun o => t.values.tag (some o), a.tags⟩
    | .findPathsToClosestGcRoots q =>
        ∃ rounds size start t,
          Executes
            (meaning e.heap e.readings
              (PathsToClosestGcRootsAction.Effect m q)
              (PathsToClosestGcRootsAction.walks m))
            e.world.stops
            (PathsToClosestGcRootsAction.operation q rounds
              size)
            0
            ⟨⟨a.tag, ⟨a.tags, start, none⟩⟩,
              .initial e.finishTime⟩
            numbers n t ∧
          e.value = .paths t.values.user.result ∧
          a' = ⟨t.values.tag, t.values.user.tags⟩

/- One request of a sequence, with what is left after it. -/
structure Service (O : Type) where
  exchange : Exchange O
  before : Agent O
  after : Agent O

/- Each request finds what the one before it has left. -/
def ServesAll
    (m : Addresses) :
    Agent O → List (Service O) → Prop
| _, [] => True
| a, s :: services =>
    s.before = a ∧ Serves m a s.exchange s.after ∧
      ServesAll m s.after services

/-
  The condition on a request for paths: no back reference
  that is left in the static tag leads to a deleted tag.
-/
def NoneStale
    (m : Addresses)
    (s : Service O) : Prop :=
  match s.exchange.request with
  | .findPathsToClosestGcRoots _ =>
      ∀ tags, s.before.tags = some tags →
        Roots.NoStale m tags
  | _ => True

------------------------------------------------------------
-- Answers
------------------------------------------------------------

/- When an answer is specified. -/
def Fits
    [Fintype O]
    (h : Heap O) : Request O → Prop
| .size _ => True
| .getShallowAndRetainedSizesByObjects array =>
    ∀ o ∈ array.elements, h.RootReachable o
| .findPathsToClosestGcRoots q =>
    Roots.Apart h q.refClasses q.target ∧
      1 ≤ q.pathsNumber.toInt ∧
      (2 * Fintype.card O : Int) < q.objectsNumber.toInt

/- The answer that the heap determines. -/
def Answers
    [Fintype O]
    (h : Heap O) : Request O → Value O → Prop
| .size object, .sizes data =>
    data.shallowSize = h.size object ∧
      data.heldObjects.Nodup ∧
      (∀ o, o ∈ data.heldObjects ↔
        h.Retained (· = object) o) ∧
      data.retainedSize =
        RetainedSizeAndHeldObjects.retainedSum h object
| .getShallowAndRetainedSizesByObjects array, .lists lists =>
    lists =
      some ⟨array.elements.map h.size,
        array.elements.map
          (RetainedSizeAndHeldObjects.retainedSum h)⟩
| .findPathsToClosestGcRoots q, .paths paths =>
    ∃ result roots distance, paths = some result ∧
      Roots.ClosestRoots h q.target q.pathsNumber roots
        distance ∧
      Roots.ShowsPaths h q.target roots distance result
| _, _ => False

/- The search of a request reads no deleted tag. -/
def ReadsNoDeleted
    (m : Addresses)
    (s : Service O) : Prop :=
  match s.exchange.request with
  | .findPathsToClosestGcRoots q =>
      ∃ tags, s.before.tags = some tags ∧
        Roots.ReadsNoDeleted s.exchange.heap m q.refClasses
          q.target tags
  | _ => True

/- No tag is on an object or in memory. -/
structure Clean (a : Agent O) : Prop where
  tag : a.tag = fun _ => 0
  tags :
    ∃ tags, a.tags = some tags ∧
      (∀ x, tags.store.get x = none) ∧
        tags.rootsTagBalance = 0

omit [DecidableEq O] in
theorem clean_initial : Clean (Agent.initial O) :=
  ⟨rfl, GcTags.initial, rfl, fun _ => rfl, rfl⟩

section Steps

variable [Fintype O]
variable {m : Addresses}
variable {a a' : Agent O}
variable {e : Exchange O}
variable {services : List (Service O)}

/- A request is answered, and leaves nothing behind. -/
theorem Clean.serves
    (hClean : Clean a)
    (hServes : Serves m a e a') :
    Clean a' ∧
      (e.errorCode = .OK → Fits e.heap e.request →
        Answers e.heap e.request e.value) := by
  rcases e with
    ⟨h, finishTime, readings, stays, request, errorCode,
      value⟩
  rcases a with ⟨tag, memory⟩
  rcases hClean with ⟨rfl, tags, rfl, hFree, hBalance⟩
  rcases hServes with ⟨numbers, n, hCode, hServes⟩
  cases request with
  | size object =>
      rcases hServes with
        ⟨retainedSize, shallowSize, t, hRun, rfl, rfl⟩
      rcases
          RetainedSizeAndHeldObjectsAction.executes_operation
            hRun with
        ⟨hTag, hAnswer⟩
      exact ⟨⟨hTag, tags, rfl, hFree, hBalance⟩,
        fun hOk _ => hAnswer (hCode.symm.trans hOk)⟩
  | getShallowAndRetainedSizesByObjects array =>
      rcases hServes with
        ⟨fresh, t, hLength, hRun, rfl, rfl⟩
      have hNone :
          withArray (fun _ : O => 0) = fun _ => 0 := by
        funext o
        cases o with
        | none => rfl
        | some o => rfl
      dsimp only at hRun
      rw [hNone] at hRun
      rcases
          RetainedSizesViaDominatorTreeAction.executes_operation
            hLength hRun with
        ⟨hTag, hAnswer⟩
      refine ⟨⟨?_, tags, rfl, hFree, hBalance⟩,
        fun hOk hFits =>
          hAnswer (hCode.symm.trans hOk) hFits⟩
      funext o
      exact congrFun hTag (some o)
  | findPathsToClosestGcRoots q =>
      rcases hServes with
        ⟨rounds, size, start, t, hRun, rfl, rfl⟩
      rcases PathsToClosestGcRootsAction.executes_operation
          hFree hBalance hRun with
        ⟨hTag, hTags, hAnswer⟩
      refine ⟨⟨hTag, hTags⟩, ?_⟩
      rintro hOk ⟨hApart, hNumber, hRoom⟩
      exact hAnswer (hCode.symm.trans hOk) hApart hNumber
        hRoom

omit [Fintype O] in
theorem Clean.readsNoDeleted
    {s : Service O}
    (hClean : Clean s.before)
    (hStale : NoneStale m s) :
    ReadsNoDeleted m s := by
  rcases s with
    ⟨⟨h, finishTime, readings, stays, request, errorCode,
      value⟩, before, after⟩
  rcases hClean with ⟨_, tags, hTags, hFree, _⟩
  cases request with
  | size object => exact trivial
  | getShallowAndRetainedSizesByObjects array =>
      exact trivial
  | findPathsToClosestGcRoots q =>
      exact ⟨tags, hTags,
        (hStale tags hTags).readsNoDeleted hFree h
          q.refClasses q.target⟩

/- Every request finds the agent clean, and leaves it so. -/
theorem Clean.servesAll
    (hClean : Clean a)
    (hServes : ServesAll m a services) :
    ∀ s ∈ services,
      Clean s.before ∧ Clean s.after ∧
        (s.exchange.errorCode = .OK →
          Fits s.exchange.heap s.exchange.request →
            Answers s.exchange.heap s.exchange.request
              s.exchange.value) := by
  induction services generalizing a with
  | nil => exact fun _ hMem => absurd hMem List.not_mem_nil
  | cons s services ih =>
      rcases hServes with ⟨hBefore, hFirst, hRest⟩
      rcases hClean.serves hFirst with ⟨hNext, hAnswer⟩
      refine List.forall_mem_cons.mpr
        ⟨⟨?_, hNext, hAnswer⟩, ih hNext hRest⟩
      rw [hBefore]
      exact hClean

end Steps

/-
  In every sequence of requests, each of them served up to
  its end or cut short, whatever happens to the heap between
  them, provided that no request for paths comes when the
  static tag holds a stale back reference: no search reads a
  deleted tag, an answer with the code OK is the right one
  for the heap of its request, whatever came before, and
  after each request neither a tag on an object nor one in
  memory is left.
-/
theorem requests_isolated
    [Fintype O]
    (m : Addresses)
    (services : List (Service O))
    (hServes : ServesAll m (.initial O) services)
    (hStale : ∀ s ∈ services, NoneStale m s) :
    ∀ s ∈ services,
      ReadsNoDeleted m s ∧
      s.after.tag = (fun _ => 0) ∧
      (∃ tags, s.after.tags = some tags ∧
        (∀ x, tags.store.get x = none) ∧
          tags.rootsTagBalance = 0) ∧
      (s.exchange.errorCode = .OK →
        Fits s.exchange.heap s.exchange.request →
          Answers s.exchange.heap s.exchange.request
            s.exchange.value) := by
  intro s hMem
  rcases clean_initial.servesAll hServes s hMem with
    ⟨hBefore, hAfter, hAnswer⟩
  exact ⟨hBefore.readsNoDeleted (hStale s hMem),
    hAfter.tag, hAfter.tags, hAnswer⟩

section Example

open RetainedSizeAndHeldObjects (objectAndPair)
open RetainedSizeAndHeldObjectsAction
  (undisturbedReadings undisturbedReadings_stays
    executes_objectAndPair)
open PathsToClosestGcRootsAction
  (threadQuery executes_twoReferenceClasses)
open Roots (ascendingAddresses twoReferenceClasses
  apart_twoReferenceClasses)

/- The retained size of object 1. -/
def sizeExchange : Exchange (Fin 4) where
  heap := objectAndPair
  finishTime := 10
  readings := undisturbedReadings
  stays := undisturbedReadings_stays
  request := .size 1
  errorCode := .OK
  value := .sizes ⟨32, 16, [1, 3]⟩

/- The paths to object 1 of another heap. -/
def pathsExchange
    (paths : Option (Roots.Result (Fin 4))) :
    Exchange (Fin 4) where
  heap := twoReferenceClasses
  finishTime := 10
  readings := undisturbedReadings
  stays := undisturbedReadings_stays
  request := .findPathsToClosestGcRoots threadQuery
  errorCode := .OK
  value := .paths paths

/- The size of an object, and then the paths to one. -/
def sizeAndPaths
    (paths : Option (Roots.Result (Fin 4)))
    (a : Agent (Fin 4)) : List (Service (Fin 4)) :=
  [⟨sizeExchange, .initial (Fin 4), .initial (Fin 4)⟩,
    ⟨pathsExchange paths, .initial (Fin 4), a⟩]

theorem requests_isolated_thread :
    ∃ paths a,
      ServesAll ascendingAddresses (.initial (Fin 4))
          (sizeAndPaths paths a) ∧
        a.tag = (fun _ => 0) ∧
        Answers objectAndPair (.size 1) sizeExchange.value ∧
        Answers twoReferenceClasses
          (.findPathsToClosestGcRoots threadQuery)
          (.paths paths) := by
  rcases executes_twoReferenceClasses with ⟨t, hRun⟩
  have hServes :
      ServesAll ascendingAddresses (.initial (Fin 4))
        (sizeAndPaths t.values.user.result
          ⟨t.values.tag, t.values.user.tags⟩) :=
    ⟨rfl, ⟨_, 10, rfl, 7, 7, _, executes_objectAndPair, rfl,
        rfl⟩,
      rfl, ⟨_, 5, rfl, 0, 1, 0, t, hRun, rfl, rfl⟩, trivial⟩
  have hAll :=
    requests_isolated ascendingAddresses _ hServes
      (List.forall_mem_cons.mpr ⟨trivial,
        List.forall_mem_singleton.mpr (by
          intro tags hTags info hMem
          cases hTags
          exact absurd hMem List.not_mem_nil)⟩)
  rcases hAll _ List.mem_cons_self with ⟨_, _, _, hSize⟩
  rcases hAll _
      (List.mem_cons_of_mem _ List.mem_cons_self) with
    ⟨_, hTag, _, hPaths⟩
  exact ⟨_, _, hServes, hTag, hSize rfl trivial,
    hPaths rfl
      ⟨apart_twoReferenceClasses, by decide, by decide⟩⟩

end Example

end Sessions

end Actions

end MemoryAgent
