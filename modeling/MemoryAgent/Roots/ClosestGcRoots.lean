import Mathlib.Data.Finset.Card
import MemoryAgent.Graph.BreadthFirst
import MemoryAgent.Roots.Infos

/-
  The search of `collectPathsToClosestGcRoots`: from the
  start tag backwards along recorded references, level by
  level, until enough tags with a root reference are found.

  Key definitions include:
    * `ClosestGcRoots.Search`
    * `ClosestGcRoots.scan`
    * `ClosestGcRoots.searchTags`
    * `ClosestGcRoots.search`
    * `ClosestGcRoots.BackReferenceGraph`

  Main results:
    * `ClosestGcRoots.searchTags_eq_search`
    * `ClosestGcRoots.search_finds_closest`
-/

------------------------------------------------------------
-- The Search
------------------------------------------------------------

namespace MemoryAgent

namespace ClosestGcRoots

/- The local variables of the search. -/
structure Search where
  queue : List jlong
  prevTag : jlong → Option jlong
  foundRootsSet : List jlong
  foundRoots : List jlong

/-
  A `jint` converted to `size_t`, as in the comparisons with
  the number of found roots.
-/
def toSize (n : Int32) : Nat :=
  (n.toInt % 2 ^ 64).toNat

/-
  The effect of one back reference of `tag`: the tag becomes
  a found root, or the referrer is discovered.
-/
def scanInfo
    (tag : jlong)
    (info : ReferenceInfo)
    (s : Search) : Search :=
  let parentTag := info.tag
  if isValidGcRoot parentTag info.kind = true ∧
      tag ∉ s.foundRootsSet then
    { s with
      foundRootsSet := tag :: s.foundRootsSet
      foundRoots := s.foundRoots ++ [tag] }
  else if parentTag ≠ rootTag ∧
      s.prevTag parentTag = none then
    { s with
      prevTag :=
        Function.update s.prevTag parentTag (some tag)
      queue := s.queue ++ [parentTag] }
  else
    s

/- The inner loop over the back references of `tag`. -/
def scan
    (number : Int32)
    (tag : jlong) :
    List ReferenceInfo → Search → Search
| [], s => s
| info :: infos, s =>
    let s' := scanInfo tag info s
    if s'.foundRoots.length ≥ toSize number then
      s'
    else
      scan number tag infos s'

/-
  The outer loop.  The fuel bounds the number of dequeued
  tags.  There is no result without fuel left, and none
  after a tag without back references, which was deleted.
-/
def searchLoop
    (backRefs : jlong → Option (List ReferenceInfo))
    (number : Int32) :
    Nat → Search → Option Search
| 0, _ => none
| fuel + 1, s =>
    match s.queue with
    | [] => some s
    | tag :: queue =>
        if toSize number > s.foundRoots.length then do
          let infos ← backRefs tag
          searchLoop backRefs number fuel
            (scan number tag infos { s with queue := queue })
        else
          some s

def initialSearch (start : jlong) : Search where
  queue := [start]
  prevTag :=
    Function.update (fun _ => none) start (some start)
  foundRootsSet := []
  foundRoots := []

def searchTags
    (backRefs : jlong → Option (List ReferenceInfo))
    (start : jlong)
    (number : Int32)
    (fuel : Nat) : Option Search :=
  searchLoop backRefs number fuel (initialSearch start)

/- The search among tags none of which was deleted. -/
def search
    (backRefs : jlong → List ReferenceInfo)
    (start : jlong)
    (number : Int32)
    (fuel : Nat) : Option Search :=
  searchTags (fun tag => some (backRefs tag)) start number
    fuel

------------------------------------------------------------
-- Back Reference Graphs
------------------------------------------------------------

/- A tag refers back to the referrers recorded for it. -/
def BackReference
    (backRefs : jlong → List ReferenceInfo)
    (tag parentTag : jlong) : Prop :=
  parentTag ≠ rootTag ∧
    ∃ info ∈ backRefs tag, info.tag = parentTag

/- The tag has a root reference that the search counts. -/
def hasGcRoot
    (backRefs : jlong → List ReferenceInfo)
    (tag : jlong) : Bool :=
  (backRefs tag).any
    (fun info => isValidGcRoot info.tag info.kind)

/-
  A finite graph of tags with back references: the referrers
  recorded for a tag are tags of the graph.
-/
structure BackReferenceGraph where
  tags : Finset jlong
  backRefs : jlong → List ReferenceInfo
  closed :
    ∀ tag ∈ tags, ∀ parentTag,
      BackReference backRefs tag parentTag →
        parentTag ∈ tags

/-
  The tags with a counted root reference that the search can
  reach from `start`.
-/
def RootAt
    (backRefs : jlong → List ReferenceInfo)
    (start tag : jlong)
    (distance : Nat) : Prop :=
  hasGcRoot backRefs tag = true ∧
    BreadthFirst.IsDistance (BackReference backRefs) start
      tag distance

------------------------------------------------------------
-- Deleted Tags
------------------------------------------------------------

section Deleted

variable {tagRefs : jlong → Option (List ReferenceInfo)}
variable {number : Int32}

/- A scanned back reference leads into the queue. -/
theorem mem_queue_scan
    {tag t : jlong}
    {infos : List ReferenceInfo}
    {s : Search}
    (hMem : t ∈ (scan number tag infos s).queue) :
    t ∈ s.queue ∨
      t ≠ rootTag ∧ ∃ info ∈ infos, info.tag = t := by
  induction infos generalizing s with
  | nil => exact Or.inl hMem
  | cons info infos ih =>
      have hOne :
          ∀ t ∈ (scanInfo tag info s).queue,
            t ∈ s.queue ∨ t ≠ rootTag ∧ info.tag = t := by
        intro t hT
        unfold scanInfo at hT
        dsimp only at hT
        split_ifs at hT with _ hNew
        · exact Or.inl hT
        · rcases List.mem_append.mp hT with hOld | hAdded
          · exact Or.inl hOld
          · rw [List.mem_singleton.mp hAdded]
            exact Or.inr ⟨hNew.1, rfl⟩
        · exact Or.inl hT
      have hRest :
          t ∈ (scanInfo tag info s).queue ∨
            t ≠ rootTag ∧ ∃ info ∈ infos, info.tag = t := by
        unfold scan at hMem
        dsimp only at hMem
        split at hMem
        · exact Or.inl hMem
        · exact ih hMem
      rcases hRest with hQueue | ⟨hNotRoot, other, hO, hEq⟩
      · refine (hOne t hQueue).imp_right ?_
        rintro ⟨hNotRoot, hEq⟩
        exact ⟨hNotRoot, info, List.mem_cons_self, hEq⟩
      · exact Or.inr ⟨hNotRoot, other,
          List.mem_cons_of_mem info hO, hEq⟩

/-
  A search whose tags are all in memory is one among tags
  that are never deleted.
-/
theorem searchLoop_eq
    {backRefs : jlong → List ReferenceInfo}
    {alive : jlong → Prop}
    (hRefs :
      ∀ tag, alive tag →
        tagRefs tag = some (backRefs tag))
    (hClosed :
      ∀ tag, alive tag → ∀ parentTag,
        BackReference backRefs tag parentTag →
          alive parentTag)
    (fuel : Nat)
    {s : Search}
    (hQueue : ∀ tag ∈ s.queue, alive tag) :
    searchLoop tagRefs number fuel s =
      searchLoop (fun tag => some (backRefs tag)) number fuel
        s := by
  induction fuel generalizing s with
  | zero => rfl
  | succ fuel ih =>
      cases hEq : s.queue with
      | nil => simp [searchLoop, hEq]
      | cons tag queue =>
          rw [hEq] at hQueue
          have hTag := hQueue tag List.mem_cons_self
          have hNext :
              ∀ t ∈ (scan number tag (backRefs tag)
                  { s with queue := queue }).queue,
                alive t := by
            intro t hMem
            rcases mem_queue_scan hMem with
              hOld | ⟨hNotRoot, hInfo⟩
            · exact hQueue t (List.mem_cons_of_mem tag hOld)
            · exact hClosed tag hTag t ⟨hNotRoot, hInfo⟩
          simp only [searchLoop, hEq, hRefs tag hTag,
            Option.bind_eq_bind, Option.bind_some, ih hNext]

/- A search that returns has met no deleted tag. -/
theorem search_of_searchTags
    {backRefs : jlong → List ReferenceInfo}
    (hRefs :
      ∀ tag infos, tagRefs tag = some infos →
        backRefs tag = infos)
    {start : jlong}
    {fuel : Nat}
    {found : Search}
    (hSearch :
      searchTags tagRefs start number fuel = some found) :
    search backRefs start number fuel = some found := by
  have hLoop :
      ∀ fuel s,
        searchLoop tagRefs number fuel s = some found →
          searchLoop (fun tag => some (backRefs tag)) number
            fuel s = some found := by
    intro fuel
    induction fuel with
    | zero => intro s hNone; cases hNone
    | succ fuel ih =>
        intro s hSome
        cases hEq : s.queue with
        | nil =>
            simp only [searchLoop, hEq] at hSome ⊢
            exact hSome
        | cons tag queue =>
            simp only [searchLoop, hEq] at hSome ⊢
            split at hSome
            · next hMore =>
                rcases Option.bind_eq_some_iff.mp hSome with
                  ⟨infos, hInfos, hRest⟩
                rw [if_pos hMore, hRefs tag infos hInfos]
                exact ih _ hRest
            · next hMore =>
                rw [if_neg hMore]
                exact hSome
  exact hLoop fuel (initialSearch start) hSearch

theorem searchTags_eq_search
    {start : jlong}
    (g : BackReferenceGraph)
    (hRefs :
      ∀ tag ∈ g.tags, tagRefs tag = some (g.backRefs tag))
    (hStart : start ∈ g.tags)
    (fuel : Nat) :
    searchTags tagRefs start number fuel =
      search g.backRefs start number fuel := by
  apply searchLoop_eq hRefs g.closed
  intro tag hMem
  rw [List.mem_singleton.mp hMem]
  exact hStart

/-
  What the search has read: the tags it found, and those
  from which it discovered others.
-/
structure Read
    (tagRefs : jlong → Option (List ReferenceInfo))
    (start : jlong)
    (s : Search) : Prop where
  foundRoots : ∀ tag ∈ s.foundRoots, tagRefs tag ≠ none
  prevTag :
    ∀ tag prev, s.prevTag tag = some prev →
      tag = start ∨ tagRefs prev ≠ none

theorem Read.scan
    {start tag : jlong}
    (hTag : tagRefs tag ≠ none)
    (infos : List ReferenceInfo)
    {s : Search}
    (hRead : Read tagRefs start s) :
    Read tagRefs start
      (ClosestGcRoots.scan number tag infos s) := by
  induction infos generalizing s with
  | nil => exact hRead
  | cons info infos ih =>
      have hOne : Read tagRefs start (scanInfo tag info s) := by
        unfold scanInfo
        dsimp only
        split_ifs
        · refine ⟨?_, hRead.prevTag⟩
          intro t hMem
          rcases List.mem_append.mp hMem with hOld | hNew
          · exact hRead.foundRoots t hOld
          · rw [List.mem_singleton.mp hNew]
            exact hTag
        · refine ⟨hRead.foundRoots, ?_⟩
          intro t prev hPrev
          dsimp only at hPrev
          by_cases hEq : t = info.tag
          · rw [hEq, Function.update_self] at hPrev
            rw [← Option.some.inj hPrev]
            exact Or.inr hTag
          · rw [Function.update_of_ne hEq] at hPrev
            exact hRead.prevTag t prev hPrev
        · exact hRead
      unfold ClosestGcRoots.scan
      dsimp only
      split
      · exact hOne
      · exact ih hOne

/-
  The tags on the paths of a result are in memory: the loops
  that build the paths read no others.
-/
theorem read_of_searchTags
    {start : jlong}
    {fuel : Nat}
    {s' : Search}
    (hSearch :
      searchTags tagRefs start number fuel = some s') :
    Read tagRefs start s' := by
  have hLoop :
      ∀ fuel s, Read tagRefs start s →
        searchLoop tagRefs number fuel s = some s' →
          Read tagRefs start s' := by
    intro fuel
    induction fuel with
    | zero => intro s _ hNone; cases hNone
    | succ fuel ih =>
        intro s hRead hSome
        cases hEq : s.queue with
        | nil =>
            simp only [searchLoop, hEq] at hSome
            exact Option.some.inj hSome ▸ hRead
        | cons tag queue =>
            simp only [searchLoop, hEq] at hSome
            split at hSome
            · rcases Option.bind_eq_some_iff.mp hSome with
                ⟨infos, hInfos, hRest⟩
              have hTag : tagRefs tag ≠ none := by
                rw [hInfos]
                exact Option.some_ne_none infos
              have hDequeued :
                  Read tagRefs start
                    { s with queue := queue } :=
                ⟨hRead.foundRoots, hRead.prevTag⟩
              exact ih _ (hDequeued.scan hTag infos) hRest
            · exact Option.some.inj hSome ▸ hRead
  apply hLoop fuel (initialSearch start) _ hSearch
  refine ⟨fun t hMem => absurd hMem List.not_mem_nil, ?_⟩
  intro tag prev hPrev
  by_cases hEq : tag = start
  · exact Or.inl hEq
  · simp [initialSearch, hEq] at hPrev

end Deleted

------------------------------------------------------------
-- The Invariant of the Search
------------------------------------------------------------

variable {backRefs : jlong → List ReferenceInfo}
variable {start : jlong}
variable {number : Int32}

/-
  Between two rounds of the outer loop: the tags of `done`
  have been dequeued, in this order, and the found roots are
  those of them that have a counted root reference.
-/
structure Searched
    (backRefs : jlong → List ReferenceInfo)
    (start : jlong)
    (done : List jlong)
    (depth : jlong → Nat)
    (s : Search) : Prop where
  frontier :
    BreadthFirst.Frontier (BackReference backRefs) start
      done s.queue s.prevTag depth
  foundRoots_eq :
    s.foundRoots = done.filter (hasGcRoot backRefs)
  foundRootsSet_iff :
    ∀ tag, tag ∈ s.foundRootsSet ↔ tag ∈ s.foundRoots

/-
  Within a round: `current` has been dequeued and the back
  references `seen` of it have been scanned.
-/
structure Scanned
    (backRefs : jlong → List ReferenceInfo)
    (start : jlong)
    (done : List jlong)
    (current : jlong)
    (seen : List ReferenceInfo)
    (depth : jlong → Nat)
    (s : Search) : Prop where
  frontier :
    BreadthFirst.Frontier (BackReference backRefs) start
      done (current :: s.queue) s.prevTag depth
  foundRoots_eq :
    s.foundRoots =
      done.filter (hasGcRoot backRefs) ++
        if seen.any
            (fun info =>
              isValidGcRoot info.tag info.kind) then
          [current]
        else
          []
  foundRootsSet_iff :
    ∀ tag, tag ∈ s.foundRootsSet ↔ tag ∈ s.foundRoots
  discovered :
    ∀ info ∈ seen, info.tag ≠ rootTag →
      s.prevTag info.tag ≠ none

theorem Searched.init :
    Searched backRefs start [] (fun _ => 0)
      (initialSearch start) :=
  ⟨BreadthFirst.Frontier.init _ start, rfl, by
    simp [initialSearch]⟩

/- Dequeuing a tag starts a round. -/
theorem Searched.dequeue
    {done queue : List jlong}
    {current : jlong}
    {depth : jlong → Nat}
    {s : Search}
    (hSearched : Searched backRefs start done depth s)
    (hQueue : s.queue = current :: queue) :
    Scanned backRefs start done current [] depth
      { s with queue := queue } := by
  refine ⟨?_, ?_, hSearched.foundRootsSet_iff, by simp⟩
  · rw [← hQueue]
    exact hSearched.frontier
  · simpa using hSearched.foundRoots_eq

/- A round that scans all back references is complete. -/
theorem Scanned.settle
    {done : List jlong}
    {current : jlong}
    {depth : jlong → Nat}
    {s : Search}
    (hScanned :
      Scanned backRefs start done current
        (backRefs current) depth s) :
    Searched backRefs start (done ++ [current]) depth s := by
  refine ⟨?_, ?_, hScanned.foundRootsSet_iff⟩
  · apply hScanned.frontier.settle
    rintro parentTag ⟨hRoot, info, hInfo, rfl⟩
    exact hScanned.discovered info hInfo hRoot
  · rw [hScanned.foundRoots_eq, List.filter_append]
    simp only [List.filter_cons, List.filter_nil, hasGcRoot]
    rfl

theorem isValidGcRoot_tag
    {tag : jlong}
    {kind : HeapReferenceKind}
    (hValid : isValidGcRoot tag kind = true) :
    tag = rootTag := by
  simp only [isValidGcRoot, Bool.and_eq_true,
    beq_iff_eq] at hValid
  exact hValid.1.1

/-
  The tag being scanned is a found root as soon as one of its
  scanned back references is counted.
-/
theorem Scanned.mem_foundRootsSet_iff
    {done : List jlong}
    {current : jlong}
    {seen : List ReferenceInfo}
    {depth : jlong → Nat}
    {s : Search}
    (hScanned :
      Scanned backRefs start done current seen depth s) :
    current ∈ s.foundRootsSet ↔
      seen.any
        (fun info =>
          isValidGcRoot info.tag info.kind) = true := by
  have hCurrent :
      current ∉ done.filter (hasGcRoot backRefs) := by
    intro hMem
    have hNodup :=
      List.nodup_append.mp hScanned.frontier.nodup
    exact hNodup.2.2 current (List.mem_filter.mp hMem).1
      current List.mem_cons_self rfl
  rw [hScanned.foundRootsSet_iff,
    hScanned.foundRoots_eq, List.mem_append]
  split
  · rename_i hAny
    simp [hAny]
  · rename_i hAny
    simpa [hAny] using hCurrent

/- A back reference that leads to nothing new. -/
theorem Scanned.discovered_append
    {done : List jlong}
    {current : jlong}
    {seen : List ReferenceInfo}
    {info : ReferenceInfo}
    {depth : jlong → Nat}
    {s : Search}
    (hScanned :
      Scanned backRefs start done current seen depth s)
    (hOld :
      info.tag ≠ rootTag → s.prevTag info.tag ≠ none) :
    ∀ other ∈ seen ++ [info], other.tag ≠ rootTag →
      s.prevTag other.tag ≠ none := by
  intro other hOther hNotRoot
  rcases List.mem_append.mp hOther with h | h
  · exact hScanned.discovered other h hNotRoot
  · rw [List.mem_singleton.mp h] at hNotRoot ⊢
    exact hOld hNotRoot

/- A counted back reference makes the tag a found root. -/
theorem Scanned.scanInfo_valid
    {done : List jlong}
    {current : jlong}
    {seen : List ReferenceInfo}
    {info : ReferenceInfo}
    {depth : jlong → Nat}
    {s : Search}
    (hScanned :
      Scanned backRefs start done current seen depth s)
    (hValid : isValidGcRoot info.tag info.kind = true) :
    Scanned backRefs start done current (seen ++ [info])
      depth (ClosestGcRoots.scanInfo current info s) := by
  have hTag := isValidGcRoot_tag hValid
  by_cases hNew : current ∉ s.foundRootsSet
  · have hScan :
        ClosestGcRoots.scanInfo current info s =
          { s with
            foundRootsSet := current :: s.foundRootsSet
            foundRoots := s.foundRoots ++ [current] } :=
      if_pos ⟨hValid, hNew⟩
    have hAny :
        ¬ seen.any
            (fun info =>
              isValidGcRoot info.tag info.kind) =
          true :=
      fun h =>
        hNew (hScanned.mem_foundRootsSet_iff.mpr h)
    rw [hScan]
    refine ⟨hScanned.frontier, ?_, ?_,
      hScanned.discovered_append
        (fun hNotRoot => absurd hTag hNotRoot)⟩
    · rw [hScanned.foundRoots_eq]
      simp [hAny, hValid]
    · intro tag
      rw [List.mem_cons, List.mem_append,
        List.mem_singleton, hScanned.foundRootsSet_iff]
      exact or_comm
  · have hScan :
        ClosestGcRoots.scanInfo current info s = s := by
      unfold ClosestGcRoots.scanInfo
      rw [if_neg (fun h => hNew h.2),
        if_neg (fun h => h.1 hTag)]
    have hAny :=
      hScanned.mem_foundRootsSet_iff.mp (not_not.mp hNew)
    rw [hScan]
    refine ⟨hScanned.frontier, ?_,
      hScanned.foundRootsSet_iff,
      hScanned.discovered_append
        (fun hNotRoot => absurd hTag hNotRoot)⟩
    rw [hScanned.foundRoots_eq]
    simp [hAny, List.any_append]

/- Another back reference may discover the tag it leads to. -/
theorem Scanned.scanInfo_invalid
    {done : List jlong}
    {current : jlong}
    {seen : List ReferenceInfo}
    {info : ReferenceInfo}
    {depth : jlong → Nat}
    {s : Search}
    (hInfo : info ∈ backRefs current)
    (hScanned :
      Scanned backRefs start done current seen depth s)
    (hValid : ¬ isValidGcRoot info.tag info.kind = true) :
    ∃ depth',
      Scanned backRefs start done current (seen ++ [info])
        depth' (ClosestGcRoots.scanInfo current info s) := by
  have hRoots :
      s.foundRoots =
        done.filter (hasGcRoot backRefs) ++
          if (seen ++ [info]).any
              (fun info =>
                isValidGcRoot info.tag info.kind) then
            [current]
          else
            [] := by
    rw [hScanned.foundRoots_eq]
    simp [List.any_append, hValid]
  by_cases hNew :
      info.tag ≠ rootTag ∧ s.prevTag info.tag = none
  · have hScan :
        ClosestGcRoots.scanInfo current info s =
          { s with
            prevTag :=
              Function.update s.prevTag info.tag
                (some current)
            queue := s.queue ++ [info.tag] } := by
      unfold ClosestGcRoots.scanInfo
      rw [if_neg (fun h => hValid h.1), if_pos hNew]
    refine
      ⟨Function.update depth info.tag
        (depth current + 1), ?_⟩
    rw [hScan]
    refine ⟨?_, hRoots, hScanned.foundRootsSet_iff, ?_⟩
    · exact hScanned.frontier.discover
        ⟨hNew.1, info, hInfo, rfl⟩ hNew.2
    · intro other hOther hNotRoot
      by_cases hEq : other.tag = info.tag
      · simp [hEq]
      · rcases List.mem_append.mp hOther with h | h
        · simpa [hEq] using
            hScanned.discovered other h hNotRoot
        · rw [List.mem_singleton.mp h] at hEq
          exact absurd rfl hEq
  · have hScan :
        ClosestGcRoots.scanInfo current info s = s := by
      unfold ClosestGcRoots.scanInfo
      rw [if_neg (fun h => hValid h.1), if_neg hNew]
    refine ⟨depth, ?_⟩
    rw [hScan]
    exact
      ⟨hScanned.frontier, hRoots,
        hScanned.foundRootsSet_iff,
        hScanned.discovered_append
          (fun hNotRoot hNone => hNew ⟨hNotRoot, hNone⟩)⟩

/- Scanning one more back reference keeps the invariant. -/
theorem Scanned.scanInfo
    {done : List jlong}
    {current : jlong}
    {seen : List ReferenceInfo}
    {info : ReferenceInfo}
    {depth : jlong → Nat}
    {s : Search}
    (hInfo : info ∈ backRefs current)
    (hScanned :
      Scanned backRefs start done current seen depth s) :
    ∃ depth',
      Scanned backRefs start done current (seen ++ [info])
        depth' (ClosestGcRoots.scanInfo current info s) := by
  by_cases hValid :
      isValidGcRoot info.tag info.kind = true
  · exact ⟨depth, hScanned.scanInfo_valid hValid⟩
  · exact hScanned.scanInfo_invalid hInfo hValid

/-
  A round either completes with fewer roots than wanted, or
  breaks off as soon as there are enough.
-/
theorem Scanned.scan
    {done : List jlong}
    {current : jlong}
    {seen rest : List ReferenceInfo}
    {depth : jlong → Nat}
    {s : Search}
    (hInfos : backRefs current = seen ++ rest)
    (hFew : s.foundRoots.length < toSize number)
    (hScanned :
      Scanned backRefs start done current seen depth s) :
    let s' := ClosestGcRoots.scan number current rest s
    (s'.foundRoots.length < toSize number ∧
        ∃ depth',
          Searched backRefs start (done ++ [current]) depth'
            s') ∨
      (s'.foundRoots.length = toSize number ∧
        ∃ seen' rest' depth',
          backRefs current = seen' ++ rest' ∧
            Scanned backRefs start done current seen'
              depth' s') := by
  induction rest generalizing seen depth s with
  | nil =>
      rw [List.append_nil] at hInfos
      exact Or.inl ⟨hFew, depth,
        (hInfos ▸ hScanned).settle⟩
  | cons info rest ih =>
      have hMem : info ∈ backRefs current := by
        simp [hInfos]
      rcases hScanned.scanInfo hMem with ⟨depth', hNext⟩
      have hLength :
          (ClosestGcRoots.scanInfo current info
              s).foundRoots.length ≤
            s.foundRoots.length + 1 := by
        unfold ClosestGcRoots.scanInfo
        dsimp only
        split_ifs <;> simp
      by_cases hEnough :
          (ClosestGcRoots.scanInfo current info
            s).foundRoots.length ≥ toSize number
      · have hScan :
            ClosestGcRoots.scan number current
                (info :: rest) s =
              ClosestGcRoots.scanInfo current info s :=
          if_pos hEnough
        rw [hScan]
        exact Or.inr ⟨by omega, seen ++ [info], rest,
          depth', by simpa using hInfos, hNext⟩
      · have hScan :
            ClosestGcRoots.scan number current
                (info :: rest) s =
              ClosestGcRoots.scan number current rest
                (ClosestGcRoots.scanInfo current info s) :=
          if_neg hEnough
        rw [hScan]
        exact ih (by simpa using hInfos) (by omega) hNext

------------------------------------------------------------
-- Outcomes of the Search
------------------------------------------------------------

/-
  The state in which the search ends: with an empty queue,
  or in the middle of a round with as many roots as wanted.
-/
def Outcome
    (backRefs : jlong → List ReferenceInfo)
    (start : jlong)
    (number : Int32)
    (s : Search) : Prop :=
  (s.queue = [] ∧ s.foundRoots.length < toSize number ∧
      ∃ done depth,
        Searched backRefs start done depth s) ∨
    (s.foundRoots.length = toSize number ∧
      ∃ done current seen rest depth,
        backRefs current = seen ++ rest ∧
          Scanned backRefs start done current seen depth s)

/- Every dequeued or waiting tag is one of the graph. -/
theorem mem_tags_of_steps
    (g : BackReferenceGraph)
    (hStart : start ∈ g.tags)
    {tag : jlong}
    {n : Nat}
    (hSteps :
      BreadthFirst.Steps (BackReference g.backRefs) n start
        tag) :
    tag ∈ g.tags := by
  induction n generalizing tag with
  | zero => exact (show start = tag from hSteps) ▸ hStart
  | succ n ih =>
      rcases hSteps with ⟨b, hb, hbc⟩
      exact g.closed b (ih hb) tag hbc

theorem searchLoop_outcome
    (g : BackReferenceGraph)
    (hStart : start ∈ g.tags)
    (fuel : Nat)
    {done : List jlong}
    {depth : jlong → Nat}
    {s : Search}
    (hFuel : g.tags.card < fuel + done.length)
    (hFew : s.foundRoots.length < toSize number)
    (hSearched : Searched g.backRefs start done depth s) :
    ∃ s',
      searchLoop (fun tag => some (g.backRefs tag)) number
          fuel s = some s' ∧
        Outcome g.backRefs start number s' := by
  induction fuel generalizing done depth s with
  | zero =>
      -- `done` holds distinct tags of the graph.
      exfalso
      have hNodup : done.Nodup :=
        (List.nodup_append.mp hSearched.frontier.nodup).1
      have hSubset : done.toFinset ⊆ g.tags := by
        intro tag hTag
        exact mem_tags_of_steps g hStart
          (hSearched.frontier.steps_depth
            (List.mem_append_left _
              (List.mem_toFinset.mp hTag)))
      have hCard := Finset.card_le_card hSubset
      rw [List.toFinset_card_of_nodup hNodup] at hCard
      omega
  | succ fuel ih =>
      cases hQueue : s.queue with
      | nil =>
          refine ⟨s, ?_, Or.inl ⟨hQueue, hFew,
            done, depth, hSearched⟩⟩
          simp [searchLoop, hQueue]
      | cons current queue =>
          have hLoop :
              searchLoop (fun tag => some (g.backRefs tag))
                  number (fuel + 1) s =
                searchLoop (fun tag => some (g.backRefs tag))
                  number fuel
                  (scan number current
                    (g.backRefs current)
                    { s with queue := queue }) := by
            simp [searchLoop, hQueue, hFew]
          rw [hLoop]
          have hFewer :
              ({ s with
                queue := queue } :
                Search).foundRoots.length <
                toSize number :=
            hFew
          have hRound :=
            (hSearched.dequeue hQueue).scan rfl hFewer
          rcases hRound with
            ⟨hRest, depth', hNext⟩ |
              ⟨hEnough, seen, rest, depth', hInfos, hNext⟩
          · apply ih _ hRest hNext
            rw [List.length_append, List.length_singleton]
            omega
          · refine ⟨_, ?_, Or.inr ⟨hEnough, done,
              current, seen, rest, depth', hInfos, hNext⟩⟩
            cases fuel with
            | zero =>
                exfalso
                have hNodup :=
                  List.nodup_append.mp
                    hNext.frontier.nodup
                have hSubset :
                    (current :: done).toFinset ⊆
                      g.tags := by
                  intro tag hTag
                  apply mem_tags_of_steps g hStart
                    (hNext.frontier.steps_depth ?_)
                  rw [List.mem_toFinset,
                    List.mem_cons] at hTag
                  rcases hTag with hTag | hTag
                  · simp [hTag]
                  · exact List.mem_append_left _ hTag
                have hDistinct :
                    (current :: done).Nodup := by
                  refine List.nodup_cons.mpr
                    ⟨?_, hNodup.1⟩
                  intro hMem
                  exact hNodup.2.2 current hMem current
                    List.mem_cons_self rfl
                have hCard := Finset.card_le_card hSubset
                rw [List.toFinset_card_of_nodup hDistinct,
                  List.length_cons] at hCard
                omega
            | succ fuel =>
                cases hTail :
                    (scan number current
                      (g.backRefs current)
                      { s with queue := queue }).queue with
                | nil => simp [searchLoop, hTail]
                | cons next rest =>
                    simp [searchLoop, hTail, hEnough]

------------------------------------------------------------
-- The Closest Roots
------------------------------------------------------------

/-
  The distinct tags with a counted root reference that can
  be reached backwards from `start`.
-/
noncomputable def reachableRoots
    (g : BackReferenceGraph)
    (start : jlong) : Finset jlong :=
  open Classical in
  g.tags.filter
    (fun tag => ∃ n, RootAt g.backRefs start tag n)

theorem mem_reachableRoots_iff
    (g : BackReferenceGraph)
    (hStart : start ∈ g.tags)
    (tag : jlong) :
    tag ∈ reachableRoots g start ↔
      ∃ n, RootAt g.backRefs start tag n := by
  classical
  simp only [reachableRoots, Finset.mem_filter]
  constructor
  · exact fun h => h.2
  · rintro ⟨n, hRoot⟩
    exact ⟨mem_tags_of_steps g hStart hRoot.2.1, n, hRoot⟩

/-
  What an outcome says about the found roots, whichever way
  the search ended.
-/
structure Found
    (backRefs : jlong → List ReferenceInfo)
    (start : jlong)
    (depth : jlong → Nat)
    (s : Search) : Prop where
  nodup : s.foundRoots.Nodup
  sorted :
    s.foundRoots.Pairwise (fun a b => depth a ≤ depth b)
  rootAt :
    ∀ tag ∈ s.foundRoots,
      RootAt backRefs start tag (depth tag)
  chain :
    ∀ tag ∈ s.foundRoots,
      BreadthFirst.follow s.prevTag (depth tag) tag =
          some start ∧
        ∀ m < depth tag,
          BreadthFirst.follow s.prevTag m tag ≠ some start
  closest :
    ∀ other n, RootAt backRefs start other n →
      other ∉ s.foundRoots →
        ∀ tag ∈ s.foundRoots, depth tag ≤ n

/- The found roots of a frontier and its prefix of roots. -/
theorem found_of_frontier
    {done queue : List jlong}
    {depth : jlong → Nat}
    {s : Search}
    (hFrontier :
      BreadthFirst.Frontier (BackReference backRefs) start
        done queue s.prevTag depth)
    (hSublist : s.foundRoots.Sublist (done ++ queue))
    (hRoots :
      ∀ tag ∈ s.foundRoots,
        hasGcRoot backRefs tag = true ∧
          (tag ∈ done ∨ queue.head? = some tag))
    (hDone :
      ∀ tag ∈ done, hasGcRoot backRefs tag = true →
        tag ∈ s.foundRoots) :
    Found backRefs start depth s := by
  constructor
  · exact hFrontier.nodup.sublist hSublist
  · exact hFrontier.sorted.sublist hSublist
  · intro tag hTag
    exact ⟨(hRoots tag hTag).1,
      hFrontier.isDistance (hSublist.subset hTag)⟩
  · intro tag hTag
    exact hFrontier.follow_depth (hSublist.subset hTag)
  · intro other n hRoot hOther tag hTag
    apply hFrontier.depth_le_of_not_done
      (hRoots tag hTag).2 ?_ hRoot.2.1
    exact fun hMem => hOther (hDone other hMem hRoot.1)

theorem Searched.found
    {done : List jlong}
    {depth : jlong → Nat}
    {s : Search}
    (hSearched : Searched backRefs start done depth s) :
    Found backRefs start depth s := by
  have hFound := hSearched.foundRoots_eq
  apply found_of_frontier hSearched.frontier
  · rw [hFound]
    exact List.filter_sublist.trans
      (List.sublist_append_left _ _)
  · intro tag hTag
    rw [hFound, List.mem_filter] at hTag
    exact ⟨hTag.2, Or.inl hTag.1⟩
  · intro tag hMem hRoot
    rw [hFound, List.mem_filter]
    exact ⟨hMem, hRoot⟩

theorem Scanned.found
    {done : List jlong}
    {current : jlong}
    {seen rest : List ReferenceInfo}
    {depth : jlong → Nat}
    {s : Search}
    (hInfos : backRefs current = seen ++ rest)
    (hScanned :
      Scanned backRefs start done current seen depth s) :
    Found backRefs start depth s := by
  have hFound := hScanned.foundRoots_eq
  apply found_of_frontier hScanned.frontier
  · rw [hFound]
    apply List.Sublist.append List.filter_sublist
    split
    · exact List.singleton_sublist.mpr List.mem_cons_self
    · exact List.nil_sublist _
  · intro tag hTag
    rw [hFound, List.mem_append, List.mem_filter] at hTag
    rcases hTag with hTag | hTag
    · exact ⟨hTag.2, Or.inl hTag.1⟩
    · split at hTag
      · rename_i hAny
        rw [List.mem_singleton] at hTag
        subst hTag
        refine ⟨?_, Or.inr rfl⟩
        rw [hasGcRoot, hInfos, List.any_append, hAny]
        rfl
      · cases hTag
  · intro tag hMem hRoot
    rw [hFound, List.mem_append, List.mem_filter]
    exact Or.inl ⟨hMem, hRoot⟩

/- More fuel does not change a result. -/
theorem searchLoop_add_fuel
    {backRefs : jlong → Option (List ReferenceInfo)}
    (fuel more : Nat)
    {s s' : Search}
    (hLoop :
      searchLoop backRefs number fuel s = some s') :
    searchLoop backRefs number (fuel + more) s =
      some s' := by
  induction fuel generalizing s with
  | zero => simp [searchLoop] at hLoop
  | succ fuel ih =>
      rw [Nat.add_right_comm]
      cases hQueue : s.queue with
      | nil =>
          simpa [searchLoop, hQueue] using hLoop
      | cons tag queue =>
          by_cases hFew :
              toSize number > s.foundRoots.length
          · simp only [searchLoop, hQueue, if_pos hFew,
              Option.bind_eq_bind,
              Option.bind_eq_some_iff] at hLoop ⊢
            rcases hLoop with ⟨infos, hInfos, hRest⟩
            exact ⟨infos, hInfos, ih hRest⟩
          · simpa [searchLoop, hQueue, hFew] using hLoop

theorem toSize_pos
    {number : Int32}
    (hNumber : 1 ≤ number.toInt) :
    (toSize number : Int) = number.toInt := by
  have hUpper := number.toInt_lt
  unfold toSize
  omega

/-
  An outcome holds the closest root tags, as many of them as
  wanted or as there are.
-/
theorem Outcome.found
    (g : BackReferenceGraph)
    (hStart : start ∈ g.tags)
    {s : Search}
    (hOutcome : Outcome g.backRefs start number s) :
    ∃ depth,
      Found g.backRefs start depth s ∧
        s.foundRoots.length =
          min (toSize number)
            (reachableRoots g start).card := by
  have hLength :
      ∀ depth, Found g.backRefs start depth s →
        s.foundRoots.length ≤
          (reachableRoots g start).card := by
    intro depth hFound
    rw [← List.toFinset_card_of_nodup hFound.nodup]
    apply Finset.card_le_card
    intro tag hTag
    rw [List.mem_toFinset] at hTag
    exact (mem_reachableRoots_iff g hStart tag).mpr
      ⟨_, hFound.rootAt tag hTag⟩
  rcases hOutcome with
    ⟨hQueue, hFew, done, depth, hSearched⟩ |
      ⟨hEnough, done, current, seen, rest, depth, hInfos,
        hScanned⟩
  · have hFound := hSearched.found
    refine ⟨depth, hFound, ?_⟩
    have hAll :
        (reachableRoots g start).card ≤
          s.foundRoots.length := by
      rw [← List.toFinset_card_of_nodup hFound.nodup]
      apply Finset.card_le_card
      intro tag hTag
      rcases (mem_reachableRoots_iff g hStart tag).mp hTag
        with ⟨n, hRoot⟩
      have hFrontier := hSearched.frontier
      rw [hQueue] at hFrontier
      rw [List.mem_toFinset, hSearched.foundRoots_eq,
        List.mem_filter]
      exact ⟨hFrontier.mem_done_of_queue_nil hRoot.2.1,
        hRoot.1⟩
    have := hLength depth hFound
    omega
  · have hFound := hScanned.found hInfos
    refine ⟨depth, hFound, ?_⟩
    have := hLength depth hFound
    omega

/-
  With fuel for every tag of the graph the search returns,
  and its found roots are the closest tags with a counted
  root reference: distinct, in the order of their distances,
  as many as wanted or as there are, none left out that is
  closer than a listed one, and the discovery links lead
  from each of them back to the start along a shortest path.
-/
theorem search_finds_closest
    (g : BackReferenceGraph)
    (start : jlong)
    (number : Int32)
    (hStart : start ∈ g.tags)
    (hNumber : 1 ≤ number.toInt) :
    ∃ (s : Search) (distance : jlong → Nat),
      (∀ fuel, g.tags.card + 1 ≤ fuel →
        search g.backRefs start number fuel = some s) ∧
      s.foundRoots.Nodup ∧
      (∀ tag ∈ s.foundRoots,
        hasGcRoot g.backRefs tag = true ∧
          BreadthFirst.IsDistance
            (BackReference g.backRefs) start tag
            (distance tag)) ∧
      s.foundRoots.Pairwise
        (fun a b => distance a ≤ distance b) ∧
      (s.foundRoots.length : Int) =
        min number.toInt (reachableRoots g start).card ∧
      (∀ other n,
        hasGcRoot g.backRefs other = true →
          BreadthFirst.IsDistance
              (BackReference g.backRefs) start other n →
            other ∉ s.foundRoots →
              ∀ tag ∈ s.foundRoots, distance tag ≤ n) ∧
      (∀ tag ∈ s.foundRoots,
        BreadthFirst.follow s.prevTag (distance tag) tag =
            some start ∧
          ∀ m < distance tag,
            BreadthFirst.follow s.prevTag m tag ≠
              some start) := by
  have hSize := toSize_pos hNumber
  have hFew :
      (initialSearch start).foundRoots.length <
        toSize number := by
    change 0 < toSize number
    omega
  rcases searchLoop_outcome g hStart (g.tags.card + 1)
      (by simp) hFew Searched.init with
    ⟨s, hLoop, hOutcome⟩
  rcases hOutcome.found g hStart with
    ⟨distance, hFound, hLength⟩
  refine ⟨s, distance, ?_, hFound.nodup, hFound.rootAt,
    hFound.sorted, ?_, ?_, hFound.chain⟩
  · intro fuel hFuel
    rcases Nat.exists_eq_add_of_le hFuel with ⟨more, rfl⟩
    exact searchLoop_add_fuel _ more hLoop
  · rw [hLength, ← hSize]
    omega
  · intro other n hRoot hDistance hOther
    exact hFound.closest other n ⟨hRoot, hDistance⟩ hOther

/-
  Three tags: 2 and 3 refer to 1 and have root references,
  3 only a JNI one, and 1 refers to 2 and 3.
-/
def sampleGraph : BackReferenceGraph where
  tags := {1, 2, 3}
  backRefs := fun tag =>
    if tag = 1 then
      [⟨2, .field, .index 0⟩, ⟨3, .field, .index 1⟩]
    else if tag = 2 then
      [⟨rootTag, .thread, .none⟩, ⟨1, .field, .index 0⟩]
    else if tag = 3 then
      [⟨rootTag, .jniGlobal, .none⟩, ⟨1, .field, .index 1⟩]
    else
      []
  closed := by
    rintro tag hTag parentTag ⟨hRoot, info, hInfo, rfl⟩
    simp only [Finset.mem_insert,
      Finset.mem_singleton] at hTag
    rcases hTag with rfl | rfl | rfl <;>
      simp at hInfo <;>
      rcases hInfo with rfl | rfl <;>
      simp_all [rootTag]

theorem search_finds_closest_sample :
    ∃ s,
      search sampleGraph.backRefs 1 2 4 = some s ∧
        s.foundRoots.Nodup ∧
        (s.foundRoots.length : Int) =
          min (2 : Int32).toInt
            (reachableRoots sampleGraph 1).card := by
  rcases search_finds_closest sampleGraph 1 2
      (by decide) (by decide) with
    ⟨s, _, hSearch, hNodup, _, _, hLength, _⟩
  exact ⟨s, hSearch 4 (by decide), hNodup, hLength⟩

example :
    (search sampleGraph.backRefs 1 2 4).map
        Search.foundRoots =
      some [2] := by
  decide

end ClosestGcRoots

end MemoryAgent
