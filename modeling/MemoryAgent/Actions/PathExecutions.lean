import MemoryAgent.Actions.SizeExecutions
import MemoryAgent.Roots.LeakCounter
import MemoryAgent.Roots.ReportedPaths
import MemoryAgent.Roots.StaleReferences

/-
  `findPathsToClosestGcRoots` as it runs: the ladder of its
  calls, each call with what it does to the tags of the
  objects and to the memory of the tags, its traversal
  through the wrapped callback, and `cleanHeap` at its end.

  Key definitions include:
    * `PathsToClosestGcRootsAction.Query`
    * `PathsToClosestGcRootsAction.Effect`
    * `PathsToClosestGcRootsAction.walks`

  Main results:
    * `PathsToClosestGcRootsAction.executes_executeOperation`
    * `PathsToClosestGcRootsAction.paths_of_ok`
-/

------------------------------------------------------------
-- Calls on a Heap
------------------------------------------------------------

namespace MemoryAgent

namespace Actions

namespace PathsToClosestGcRootsAction

open Calls
open Roots (Addresses GcTags Answered)

variable {O : Type}
variable [DecidableEq O]

/-
  What the action is asked, and the classes that are loaded.
  A reference class is one that a class of references is
  assignable from.
-/
structure Query (O : Type) where
  loaded : List O
  isReference : O → Bool
  target : O
  pathsNumber : Int32
  objectsNumber : Int32

namespace Query

def refClasses (q : Query O) : List O :=
  q.loaded.filter q.isReference

/- The answers of `isAssignableFrom`. -/
def classes (q : Query O) : List Bool :=
  q.loaded.map q.isReference

end Query

/-
  The variables of the action.  There is no result before
  the links are packed, and none after a crash.
-/
structure Gathered (O : Type) where
  tags : Option GcTags
  start : jlong
  result : Option (Roots.Result O)

/- `GcTag::create` comes right before the call for the target. -/
def perform
    (m : Addresses)
    (q : Query O)
    (s : Tagged O jlong (Gathered O)) :
    Call → Tagged O jlong (Gathered O)
| .SetTag (.referenceClass j) =>
    match q.loaded[j]? with
    | some c => s.setTag c m.weakSoftReferenceTag
    | none => s
| .SetTag .target =>
    match s.user.tags with
    | some tags =>
        let (tag, tags) := tags.create m
        { s.setTag q.target tag with
          user :=
            { s.user with tags := some tags, start := tag } }
    | none => s
| _ => s

/- The search and the paths, which need no call. -/
def searched
    (m : Addresses)
    (q : Query O)
    (s : Tagged O jlong (Gathered O))
    (fuel : Nat) : Option (Roots.Outcome O) := do
  let tags ← s.user.tags
  let found ←
    ClosestGcRoots.searchTags (tags.backRefs m) s.user.start
      q.pathsNumber fuel
  if found.foundRoots = [] then
    some ⟨s.tag, tags, s.user.start, none⟩
  else
    let paths ←
      Roots.createPaths (tags.recorded m) found.prevTag
        s.user.start q.objectsNumber fuel found.foundRoots
    some ⟨s.tag, tags, s.user.start, some paths⟩

/- The loops end with `c`. -/
def Ends
    (m : Addresses)
    (q : Query O)
    (s : Tagged O jlong (Gathered O))
    (c : Roots.Outcome O) : Prop :=
  ∃ n, ∀ fuel, n ≤ fuel → searched m q s fuel = some c

/-
  What a call does that succeeds.  JVMTI chooses the order
  of the objects with the tags, up to the sorting, and that
  in which `cleanHeap` passes the tagged ones.
-/
def Effect
    (m : Addresses)
    (q : Query O)
    (c : Call)
    (s s' : Tagged O jlong (Gathered O)) : Prop :=
  match c with
  | .GetObjectsWithTags =>
      ∃ c objects, Ends m q s c ∧ Answered c objects ∧
        s' =
          { s with
            user :=
              { s.user with
                result :=
                  Roots.createResultObject m c.tags
                    (objects.map (fun o => (o, c.tag o)))
                    (c.infos m) } }
  | .IterateThroughHeap .cleanHeap =>
      ∃ order : List O, order.Nodup ∧
        (∀ o, o ∈ order ↔ s.tag o ≠ 0) ∧
          let cleaned :=
            Roots.removeTagsFromHeap m order
              ⟨s.tag, s.user.tags⟩
          s' =
            ⟨cleaned.tag,
              { s.user with tags := cleaned.user }⟩
  | c => s' = perform m q s c

def walks
    (m : Addresses) : Call → Option (Walk O (Gathered O))
| .FollowReferences .collectPaths =>
    some
      { U := Option GcTags
        initialObject := none
        callback := Roots.collectPaths m
        load := Gathered.tags
        store := fun data tags => { data with tags := tags } }
| _ => none

------------------------------------------------------------
-- Parts of an Execution
------------------------------------------------------------

section Parts

variable {h : Heap O}
variable {m : Addresses}
variable {q : Query O}
variable {readings : Nat → CancellationChecker.Reading}
variable {stops : Nat → Bool}
variable {n k : Nat}
variable {s t : Variables O (Gathered O)}

/- `k` is the number of classes that have been passed. -/
theorem executes_tagReferences
    {i : Nat}
    {classes : List O}
    (hDrop : q.loaded.drop i = classes)
    (hRun :
      Executes (meaning h readings (Effect m q) (walks m))
        stops
        (tagReferences
          ((classes.map q.isReference).zipIdx i))
        n s () k t) :
    k = n ∧
      t =
        ⟨Roots.setTagsForReferences
            (classes.filter q.isReference)
            m.weakSoftReferenceTag s.values,
          s.cancellationChecker⟩ := by
  induction classes generalizing i s with
  | nil => exact hRun.2
  | cons c classes ih =>
      have hAt : q.loaded[i]? = some c := by
        rw [← List.head?_drop, hDrop]
        rfl
      have hNext : q.loaded.drop (i + 1) = classes := by
        rw [← List.tail_drop, hDrop]
        rfl
      rw [List.map_cons, List.zipIdx_cons] at hRun
      unfold tagReferences at hRun
      cases hIs : q.isReference c with
      | true =>
          rw [hIs, if_pos rfl] at hRun
          rcases hRun with
            ⟨_, s₁, ⟨rfl, hTagged, hSame⟩, hRest⟩
          rcases ih hNext hRest with ⟨hTime, hEq⟩
          have hValues :
              s₁.values =
                s.values.setTag c
                  m.weakSoftReferenceTag := by
            refine Eq.trans hTagged ?_
            simp only [perform, hAt]
          refine ⟨hTime, ?_⟩
          rw [hEq, hValues, hSame,
            List.filter_cons_of_pos hIs]
          rfl
      | false =>
          rw [hIs, if_neg Bool.false_ne_true] at hRun
          rcases ih hNext hRun with ⟨hTime, hEq⟩
          refine ⟨hTime, ?_⟩
          rw [hEq, List.filter_cons_of_neg
            (by rw [hIs]; exact Bool.false_ne_true)]

theorem setTagsForReferences_eq
    {U : Type}
    (classes : List O)
    (tag : jlong)
    (s : Tagged O jlong U) :
    Roots.setTagsForReferences classes tag s =
      ⟨(Roots.setTagsForReferences classes tag
          ⟨s.tag, ()⟩).tag, s.user⟩ := by
  induction classes generalizing s with
  | nil => rfl
  | cons c classes ih => exact ih (s.setTag c tag)

/-
  The reference classes and the target are tagged, and the
  traversal is a beginning of one without checks, or a whole
  one, if the action need not stop after it.
-/
theorem executes_createTags
    {tags : GcTags}
    {done : Bool}
    (hTag : s.values.tag = fun _ => 0)
    (hTags : s.values.user.tags = some tags)
    (hStays :
      ∀ n, stops n = true → stops (n + 1) = true)
    (hReadings :
      ∀ i,
        stops i =
          s.cancellationChecker.shouldStopExecution
            (readings i))
    (hRun :
      Executes (meaning h readings (Effect m q) (walks m))
        stops (createTags q.classes) n s done k t) :
    ∃ reports,
      let start :=
        Roots.initialTags m q.refClasses q.target tags
      let gathered :=
        Roots.createTags h m q.refClasses q.target tags
          reports
      Worklist.Valid h.graph
        (h.invoke (Roots.collectPaths m)) reports
        (h.traversal none start.2) ∧
      t.values =
        ⟨gathered.2.tag,
          ⟨gathered.2.user, gathered.1,
            s.values.user.result⟩⟩ ∧
      (stops k = false →
        h.FollowReferences none (Roots.collectPaths m)
          start.2 reports) := by
  let start := Roots.initialTags m q.refClasses q.target tags
  rcases executes_bind_iff.mp hRun with
    ⟨_, j, s₁, hPart, hRest⟩
  rcases hPart with ⟨_, s₀, ⟨rfl, hSame, hChecker₀⟩, hPart⟩
  have hClasses :
      Executes (meaning h readings (Effect m q) (walks m))
        stops (tagReferences (q.classes.zipIdx 0)) n s₀ () j
        s₁ := hPart
  rcases executes_tagReferences List.drop_zero hClasses with
    ⟨rfl, rfl⟩
  rcases hRest with ⟨_, s₂, ⟨rfl, hTarget, hChecker₂⟩, hRest⟩
  have hChecker :
      s₂.cancellationChecker = s.cancellationChecker :=
    hChecker₂.trans hChecker₀
  have hStart :
      s₂.values =
        ⟨start.2.tag,
          ⟨start.2.user, start.1, s.values.user.result⟩⟩ := by
    have hSame₀ : s₀.values = s.values := hSame
    refine Eq.trans hTarget ?_
    dsimp only
    rw [setTagsForReferences_eq, hSame₀, hTag]
    simp only [perform, hTags]
    rfl
  have hFollow :
      Executes (meaning h readings (Effect m q) (walks m))
        stops
        (FollowReferences .collectPaths >>=
          fun answer => pure answer.2)
        j s₂ done k t := hRest
  rcases executes_bind_iff.mp hFollow with
    ⟨answer, i, s₃, hFollow, _, rfl, rfl⟩
  have hHere :
      Executes (meaning h readings (Effect m q) (walks m))
        stops
        (if stops j then
            .ret (MEMORY_AGENT_INTERRUPTED_ERROR, false)
          else
            .sweep (.FollowReferences .collectPaths)
              fun err done => .ret (err, done))
        (j + 1) s₂ answer k t := hFollow
  cases hStops : stops j with
  | true =>
      rw [hStops, if_pos rfl] at hHere
      rcases hHere with ⟨_, rfl, rfl⟩
      refine ⟨[], trivial, hStart, fun hEnd => ?_⟩
      rw [hStays j hStops] at hEnd
      cases hEnd
  | false =>
      rw [hStops, if_neg Bool.false_ne_true] at hHere
      rcases hHere with
        ⟨_, _, _, _, ⟨rfl, walk, hWalk, final, hTraverses,
          hFinal⟩, _, rfl, rfl⟩
      cases hWalk
      dsimp only at hTraverses hFinal
      rw [hStart] at hTraverses hFinal
      have hValues
          {reports : List (Report O)}
          (hSame :
            final.unwrapped =
              h.followReferences none (Roots.collectPaths m)
                start.2 reports) :
          t.values =
            ⟨(Roots.createTags h m q.refClasses q.target tags
                reports).2.tag,
              ⟨(Roots.createTags h m q.refClasses q.target
                  tags reports).2.user, start.1,
                s.values.user.result⟩⟩ := by
        rw [hFinal]
        exact congrArg
          (fun data : Tagged O jlong (Option GcTags) =>
            Tagged.mk data.tag
              (Gathered.mk data.user start.1
                s.values.user.result))
          hSame
      by_cases hEnd : stops k = false
      · have hGoes :
            ∀ i < k,
              s₂.cancellationChecker.shouldStopExecution
                (readings i) = false := by
          intro i hI
          rw [hChecker, ← hReadings]
          exact stops_mono hStays hI.le hEnd
        rcases (hTraverses.whole rfl hGoes).2 with
          ⟨reports, hReports, hSame⟩
        exact ⟨reports, hReports.1.1, hValues hSame,
          fun _ => hReports⟩
      · rcases hTraverses.cut with ⟨reports, hValid, hSame⟩
        exact ⟨reports, hValid, hValues hSame,
          fun hNone => absurd hNone hEnd⟩

/- The questions in the search change nothing. -/
theorem executes_stopsDuringSearch
    {rounds : Nat}
    {stop : Bool}
    (hRun :
      Executes (meaning h readings (Effect m q) (walks m))
        stops (stopsDuringSearch rounds) n s stop k t) :
    t = s ∧
      (stop = true → ∃ i < k, stops i = true) := by
  induction rounds generalizing n with
  | zero =>
      rcases hRun with ⟨rfl, rfl, rfl⟩
      exact ⟨rfl, fun hStop => ⟨n, Nat.lt_succ_self n, hStop⟩⟩
  | succ rounds ih =>
      have hHere :
          Executes
            (meaning h readings (Effect m q) (walks m))
            stops
            (if stops n then pure true
              else stopsDuringSearch rounds)
            (n + 1) s stop k t := hRun
      cases hStops : stops n with
      | true =>
          rw [hStops, if_pos rfl] at hHere
          rcases hHere with ⟨rfl, rfl, rfl⟩
          exact ⟨rfl, fun _ =>
            ⟨n, Nat.lt_succ_self n, hStops⟩⟩
      | false =>
          rw [hStops, if_neg Bool.false_ne_true] at hHere
          exact ih hHere

theorem executes_createResultObject
    {done : Bool}
    {size : Nat}
    {numbers : List Number}
    (hRun :
      Executes (meaning h readings (Effect m q) (walks m))
        stops (createResultObject done size) n s numbers k
        t) :
    Effect m q .GetObjectsWithTags s.values t.values := by
  rcases hRun with ⟨_, s₁, ⟨rfl, hEffect, _⟩, hRest⟩
  rcases hRest with ⟨_, s₂, ⟨rfl, hSame₂, _⟩, hRest⟩
  rcases hRest with ⟨_, s₃, ⟨rfl, hSame₃, _⟩, hRest⟩
  rcases hRest with ⟨_, _, rfl⟩
  have hSame : t.values = s₁.values := hSame₃.trans hSame₂
  rw [hSame]
  exact hEffect

/-
  What follows the traversal leaves the tags alone, and the
  result is built, if the action need not stop at its end.
-/
theorem executes_rest
    {done : Bool}
    {rounds size : Nat}
    {numbers : List Number}
    (hStays :
      ∀ n, stops n = true → stops (n + 1) = true)
    (hRun :
      Executes (meaning h readings (Effect m q) (walks m))
        stops
        (do
          if ← shouldStopExecution then
            pure []
          else
            if ← stopsDuringSearch rounds then
              pure []
            else
              createResultObject done size)
        n s numbers k t) :
    t.values.tag = s.values.tag ∧
      t.values.user.tags = s.values.user.tags ∧
      (stops k = false →
        Effect m q .GetObjectsWithTags s.values t.values) := by
  have hHere :
      Executes (meaning h readings (Effect m q) (walks m))
        stops
        (if stops n then pure []
          else do
            if ← stopsDuringSearch rounds then
              pure []
            else
              createResultObject done size)
        (n + 1) s numbers k t := hRun
  cases hStops : stops n with
  | true =>
      rw [hStops, if_pos rfl] at hHere
      rcases hHere with ⟨_, rfl, rfl⟩
      refine ⟨rfl, rfl, fun hEnd => ?_⟩
      rw [hStays n hStops] at hEnd
      cases hEnd
  | false =>
      rw [hStops, if_neg Bool.false_ne_true] at hHere
      rcases executes_bind_iff.mp hHere with
        ⟨stop, j, s₁, hSearch, hRest⟩
      rcases executes_stopsDuringSearch hSearch with
        ⟨rfl, hStop⟩
      cases stop with
      | true =>
          rcases hRest with ⟨_, rfl, rfl⟩
          refine ⟨rfl, rfl, fun hEnd => ?_⟩
          rcases hStop rfl with ⟨i, hLt, hAt⟩
          rw [stops_mono hStays hLt.le hEnd] at hAt
          cases hAt
      | false =>
          have hEffect :
              Effect m q .GetObjectsWithTags s₁.values
                t.values :=
            executes_createResultObject hRest
          refine ⟨?_, ?_, fun _ => hEffect⟩
          · rcases hEffect with ⟨_, _, _, _, hEq⟩
            rw [hEq]
          · rcases hEffect with ⟨_, _, _, _, hEq⟩
            rw [hEq]

/- The state before `cleanHeap`. -/
theorem executes_executeOperation
    {tags : GcTags}
    {rounds size : Nat}
    {numbers : List Number}
    (hTag : s.values.tag = fun _ => 0)
    (hTags : s.values.user.tags = some tags)
    (hStays :
      ∀ n, stops n = true → stops (n + 1) = true)
    (hReadings :
      ∀ i,
        stops i =
          s.cancellationChecker.shouldStopExecution
            (readings i))
    (hRun :
      Executes (meaning h readings (Effect m q) (walks m))
        stops (executeOperation q.classes rounds size) n s
        numbers k t) :
    ∃ reports,
      let start :=
        Roots.initialTags m q.refClasses q.target tags
      let gathered :=
        Roots.createTags h m q.refClasses q.target tags
          reports
      Worklist.Valid h.graph
        (h.invoke (Roots.collectPaths m)) reports
        (h.traversal none start.2) ∧
      t.values.tag = gathered.2.tag ∧
      t.values.user.tags = gathered.2.user ∧
      (stops k = false →
        h.FollowReferences none (Roots.collectPaths m)
            start.2 reports ∧
          Effect m q .GetObjectsWithTags
            ⟨gathered.2.tag,
              ⟨gathered.2.user, gathered.1,
                s.values.user.result⟩⟩
            t.values) := by
  rcases executes_bind_iff.mp hRun with
    ⟨done, j, s₁, hCreate, hTail⟩
  rcases executes_createTags hTag hTags hStays hReadings
      hCreate with
    ⟨reports, hValid, hValues, hWhole⟩
  rcases executes_rest hStays hTail with
    ⟨hSameTag, hSameTags, hResult⟩
  rw [hValues] at hSameTag hSameTags hResult
  refine ⟨reports, hValid, hSameTag, hSameTags, ?_⟩
  intro hEnd
  exact ⟨hWhole (stops_mono hStays hTail.le hEnd),
    hResult hEnd⟩

end Parts

------------------------------------------------------------
-- The Returned Result
------------------------------------------------------------

section Returned

variable {h : Heap O}
variable {m : Addresses}
variable {q : Query O}
variable {tags : GcTags}
variable {reports : List (Report O)}

theorem searched_createTags
    (result : Option (Roots.Result O))
    (fuel : Nat) :
    let gathered :=
      Roots.createTags h m q.refClasses q.target tags reports
    searched m q
        ⟨gathered.2.tag,
          ⟨gathered.2.user, gathered.1, result⟩⟩
        fuel =
      Roots.collectPathsToClosestGcRoots h m q.refClasses
        q.target q.pathsNumber q.objectsNumber tags reports
        fuel :=
  rfl

/- The result after a whole traversal is the reported one. -/
theorem shows_of_effect
    [Fintype O]
    {result : Option (Roots.Result O)}
    {t : Tagged O jlong (Gathered O)}
    (hReports :
      h.FollowReferences none (Roots.collectPaths m)
        (Roots.initialTags m q.refClasses q.target tags).2
        reports)
    (hApart : Roots.Apart h q.refClasses q.target)
    (hNumber : 1 ≤ q.pathsNumber.toInt)
    (hRoom :
      (2 * Fintype.card O : Int) < q.objectsNumber.toInt)
    (hEffect :
      let gathered :=
        Roots.createTags h m q.refClasses q.target tags
          reports
      Effect m q .GetObjectsWithTags
        ⟨gathered.2.tag,
          ⟨gathered.2.user, gathered.1, result⟩⟩
        t) :
    ∃ final roots distance,
      t.user.result = some final ∧
        Roots.ClosestRoots h q.target q.pathsNumber roots
          distance ∧
        Roots.ShowsPaths h q.target roots distance final := by
  rcases Roots.exists_report hReports hApart hNumber hRoom
    with ⟨c, n, roots, distance, hCollect, hClosest, _, hAll⟩
  rcases hEffect with
    ⟨c', objects, ⟨n', hEnds⟩, hAnswered, hResult⟩
  -- Both are what the loops end with.
  have hSame : c' = c := by
    have hBoth := hEnds (max n n') (Nat.le_max_right _ _)
    rw [searched_createTags,
      hCollect (max n n') (Nat.le_max_left _ _)] at hBoth
    exact (Option.some.inj hBoth).symm
  rw [hSame] at hAnswered hResult
  rcases hAll objects hAnswered with
    ⟨final, hFinal, hShows⟩
  refine ⟨final, roots, distance, ?_, hClosest, hShows⟩
  have hPacked := hFinal n le_rfl
  unfold Roots.executeOperation at hPacked
  rw [hCollect n le_rfl] at hPacked
  rw [hResult]
  exact hPacked

end Returned

/- What `run` does between the two ends of the suspender. -/
def operation
    (q : Query O)
    (rounds size : Nat) : Program (List Number) := do
  let result ←
    Actions.executeOperation
      (.findPathsToClosestGcRoots q.classes rounds size)
  cleanHeap
  pure result

omit [DecidableEq O] in
theorem operationRun_eq
    (q : Query O)
    (rounds size : Nat)
    (w : World Call) :
    operationRun
        (.findPathsToClosestGcRoots q.classes rounds size) w =
      Calls.run w (operation q rounds size) 0 :=
  rfl

/- An execution that finds no tag in memory. -/
theorem executes_operation
    [Fintype O]
    {h : Heap O}
    {m : Addresses}
    {q : Query O}
    {rounds size : Nat}
    {finishTime : Int}
    {readings : Nat → CancellationChecker.Reading}
    {hStays :
      ∀ n,
        ((readings n).fileExists ||
            decide (finishTime < (readings n).now)) = true →
          ((readings (n + 1)).fileExists ||
            decide (finishTime < (readings (n + 1)).now)) =
              true}
    {tags : GcTags}
    {start : jlong}
    {numbers : List Number}
    {n : Nat}
    {t : Variables O (Gathered O)}
    (hFree : ∀ a, tags.store.get a = none)
    (hBalance : tags.rootsTagBalance = 0)
    (hRun :
      Executes
        (meaning h readings (Effect m q) (walks m))
        (worldOf finishTime readings hStays).stops
        (operation q rounds size) 0
        ⟨⟨fun _ => 0, ⟨some tags, start, none⟩⟩,
          .initial finishTime⟩
        numbers n t) :
    t.values.tag = (fun _ => 0) ∧
      (∃ tags', t.values.user.tags = some tags' ∧
        (∀ a, tags'.store.get a = none) ∧
          tags'.rootsTagBalance = 0) ∧
      (getErrorCode (worldOf finishTime readings hStays) n =
          .OK →
        Roots.Apart h q.refClasses q.target →
        1 ≤ q.pathsNumber.toInt →
        (2 * Fintype.card O : Int) < q.objectsNumber.toInt →
        ∃ result roots distance,
          t.values.user.result = some result ∧
            Roots.ClosestRoots h q.target q.pathsNumber roots
              distance ∧
            Roots.ShowsPaths h q.target roots distance
              result) := by
  rcases executes_bind_iff.mp hRun with
    ⟨_, k, s, hPart, hRest⟩
  rcases hRest with ⟨_, _, ⟨rfl, hClean, _⟩, hRest⟩
  rcases hRest with ⟨rfl, rfl, rfl⟩
  rcases executes_executeOperation rfl rfl
      (worldOf finishTime readings hStays).stays
      (fun _ => rfl) hPart with
    ⟨reports, hValid, hTag, hTags, hWhole⟩
  rcases Roots.tallied_createTags
      (Roots.tallied_of_free hFree hBalance) hValid with
    ⟨tags', hUser, hTallied⟩
  rcases hClean with ⟨order, hNodup, hOrder, hCleaned⟩
  rw [← hTag] at hTallied
  rw [← hTags] at hUser
  rcases hTallied.removeTagsFromHeap
      (s := ⟨s.values.tag, s.values.user.tags⟩) hUser hNodup
      hOrder with
    ⟨tags'', hRemoved, hTallied''⟩
  dsimp only at hCleaned
  rw [hRemoved] at hCleaned
  rw [hCleaned]
  refine ⟨rfl, ⟨tags'', rfl,
    hTallied''.get_eq_none (fun _ => rfl),
    hTallied''.rootsTagBalance_eq_zero (fun _ => rfl)⟩, ?_⟩
  intro hOk hApart hNumber hRoom
  rcases hWhole ((getErrorCode_ok_iff _ _).mp hOk) with
    ⟨hReports, hEffect⟩
  have hShown :=
    shows_of_effect hReports hApart hNumber hRoom hEffect
  exact hShown

/-
  Whatever the clock and the file are, a search that finds
  no tag in memory, and no stale back reference in the
  static tag, reads no deleted tag, and leaves no tag in
  memory and on the heap, with the leak counter at 0.  If it
  returns OK, then it returns the shortest paths to the
  closest roots: it is never cut short unnoticed.
-/
theorem paths_of_ok
    [Fintype O]
    (h : Heap O)
    (m : Addresses)
    (q : Query O)
    (rounds size : Nat)
    (finishTime : Int)
    (readings : Nat → CancellationChecker.Reading)
    (hStays :
      ∀ n,
        ((readings n).fileExists ||
            decide (finishTime < (readings n).now)) = true →
          ((readings (n + 1)).fileExists ||
            decide (finishTime < (readings (n + 1)).now)) =
              true)
    (tags : GcTags)
    (hFree : ∀ a, tags.store.get a = none)
    (hBalance : tags.rootsTagBalance = 0)
    (hStale : Roots.NoStale m tags)
    (start : jlong)
    (numbers : List Number)
    (n : Nat)
    (t : Variables O (Gathered O))
    (hRun :
      Executes
        (meaning h readings (Effect m q) (walks m))
        (worldOf finishTime readings hStays).stops
        (operation q rounds size) 0
        ⟨⟨fun _ => 0, ⟨some tags, start, none⟩⟩,
          .initial finishTime⟩
        numbers n t) :
    Roots.ReadsNoDeleted h m q.refClasses q.target tags ∧
      t.values.tag = (fun _ => 0) ∧
      (∃ tags', t.values.user.tags = some tags' ∧
        (∀ a, tags'.store.get a = none) ∧
          tags'.rootsTagBalance = 0) ∧
      (getErrorCode (worldOf finishTime readings hStays) n =
          .OK →
        Roots.Apart h q.refClasses q.target →
        1 ≤ q.pathsNumber.toInt →
        (2 * Fintype.card O : Int) < q.objectsNumber.toInt →
        ∃ result roots distance,
          t.values.user.result = some result ∧
            Roots.ClosestRoots h q.target q.pathsNumber roots
              distance ∧
            Roots.ShowsPaths h q.target roots distance
              result) := by
  exact ⟨hStale.readsNoDeleted hFree h q.refClasses q.target,
    executes_operation hFree hBalance hRun⟩

section Example

open Roots (ascendingAddresses noTags twoReferenceClasses
  twoReferenceClassesReports apart_twoReferenceClasses)
open RetainedSizeAndHeldObjectsAction
  (undisturbedReadings undisturbedReadings_stays)

/- Of the loaded classes object 2 is a reference class. -/
def threadQuery : Query (Fin 4) where
  loaded := [3, 2]
  isReference := fun o => decide (o = 2)
  target := 1
  pathsNumber := 10
  objectsNumber := 9

theorem executes_twoReferenceClasses :
    ∃ t,
      Executes
        (meaning twoReferenceClasses undisturbedReadings
          (Effect ascendingAddresses threadQuery)
          (walks ascendingAddresses))
        (worldOf 10 undisturbedReadings
          undisturbedReadings_stays).stops
        (operation threadQuery 0 1) 0
        ⟨⟨fun _ => 0, ⟨some noTags, 0, none⟩⟩,
          .initial 10⟩
        [.computed] 5 t := by
  have hReports :
      twoReferenceClasses.FollowReferences none
        (Roots.collectPaths ascendingAddresses)
        (Roots.initialTags ascendingAddresses [2] 1
          noTags).2 twoReferenceClassesReports := by
    decide
  rcases Roots.exists_report hReports
      apart_twoReferenceClasses
      (show 1 ≤ (10 : Int32).toInt by decide)
      (show (2 * Fintype.card (Fin 4) : Int) <
        (9 : Int32).toInt by decide) with
    ⟨c, k, _, _, hCollect, _, ⟨objects, hAnswered⟩, _⟩
  constructor
  refine ⟨_, ⟨_, _⟩, ⟨rfl, rfl, rfl⟩, ?_⟩
  refine ⟨_, ⟨_, _⟩, ⟨rfl, rfl, rfl⟩, ?_⟩
  refine ⟨_, ⟨_, _⟩, ⟨rfl, rfl, rfl⟩, ?_⟩
  refine ⟨_, true, _, _, ⟨rfl, _, rfl, _,
    ⟨twoReferenceClassesReports, by decide +kernel,
      iff_of_true rfl ?_, rfl, rfl⟩, rfl⟩, ?_⟩
  · unfold Worklist.GoesOn
    decide +kernel
  refine ⟨_, ⟨_, _⟩,
    ⟨rfl, ⟨c, objects, ⟨k, hCollect⟩, hAnswered, rfl⟩,
      rfl⟩, ?_⟩
  refine ⟨_, ⟨_, _⟩, ⟨rfl, rfl, rfl⟩, ?_⟩
  refine ⟨_, ⟨_, _⟩, ⟨rfl, rfl, rfl⟩, ?_⟩
  refine ⟨_, ⟨_, _⟩,
    ⟨rfl, ⟨[0, 1, 2], by decide, ?_, rfl⟩, rfl⟩, ?_⟩
  · change ∀ o : Fin 4, o ∈ [0, 1, 2] ↔
      (Roots.createTags twoReferenceClasses
        ascendingAddresses [2] 1 noTags
        twoReferenceClassesReports).2.tag o ≠ 0
    decide +kernel
  exact ⟨rfl, rfl, rfl⟩

theorem paths_of_ok_thread :
    ∃ numbers n t,
      Executes
          (meaning twoReferenceClasses undisturbedReadings
            (Effect ascendingAddresses threadQuery)
            (walks ascendingAddresses))
          (worldOf 10 undisturbedReadings
            undisturbedReadings_stays).stops
          (operation threadQuery 0 1) 0
          ⟨⟨fun _ => 0, ⟨some noTags, 0, none⟩⟩,
            .initial 10⟩
          numbers n t ∧
        Roots.ReadsNoDeleted twoReferenceClasses
          ascendingAddresses [2] 1 noTags ∧
        t.values.tag = (fun _ => 0) ∧
        ∃ result roots distance,
          t.values.user.result = some result ∧
            Roots.ClosestRoots twoReferenceClasses 1 10 roots
              distance ∧
            Roots.ShowsPaths twoReferenceClasses 1 roots
              distance result := by
  rcases executes_twoReferenceClasses with ⟨t, hRun⟩
  have hResult :=
    paths_of_ok twoReferenceClasses ascendingAddresses
      threadQuery 0 1 10 undisturbedReadings
      undisturbedReadings_stays noTags (fun _ => rfl) rfl
      (fun _ hMem => absurd hMem List.not_mem_nil) 0 _ 5 t
      hRun
  rcases hResult with ⟨hReads, hTag, _, hAnswer⟩
  exact ⟨_, _, t, hRun, hReads, hTag,
    hAnswer rfl apart_twoReferenceClasses (by decide)
      (by decide)⟩

end Example

end PathsToClosestGcRootsAction

end Actions

end MemoryAgent
