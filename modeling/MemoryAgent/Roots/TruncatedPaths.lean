import MemoryAgent.Roots.ObjectsLimit

/-
  The loop over the found roots when the limit for the number
  of objects cuts paths off: how the cuts are marked at the
  start, and how many tags are emitted.

  Key definitions include:
    * `Roots.Laid`
    * `Roots.isCut`
    * `Roots.TruncatesExactly`

  Main results:
    * `Roots.truncatesExactly_iff`
    * `Roots.length_le_objectsNumber_iff`
-/

------------------------------------------------------------
-- Growing Paths
------------------------------------------------------------

namespace MemoryAgent

namespace Roots

open ClosestGcRoots BreadthFirst

section Growth

variable {backRefs : jlong → List ReferenceInfo}
variable {start tag : jlong}
variable {prevNode : jlong → Option jlong}
variable {objectsNumber : Int32}
variable {limit cnt fuel : Nat}
variable {s s' : Paths}

/- One round of the inner loop. -/
theorem walkPath_cases
    (hWalk :
      walkPath backRefs prevNode start limit cnt (fuel + 1)
        tag s = some s') :
    (limit ≤ s.nodesToPathNum.length ∧
        s'.nodesToPathNum =
          if cnt = 1 then s.nodesToPathNum ++ [(start, 1)]
          else s.nodesToPathNum) ∨
      (s.nodesToPathNum.length < limit ∧
        (s'.nodesToPathNum = s.nodesToPathNum ∨
          ∃ prevTag infos,
            walkPath backRefs prevNode start limit cnt fuel
              prevTag
              ⟨s.nodesToPathNum ++ [(prevTag, cnt)],
                infos⟩ = some s')) := by
  rw [walkPath] at hWalk
  by_cases hLimit : limit ≤ s.nodesToPathNum.length
  · rw [if_pos hLimit] at hWalk
    rcases Option.bind_eq_some_iff.mp hWalk with
      ⟨infos, _, hEq⟩
    rw [← Option.some.inj hEq]
    exact Or.inl ⟨hLimit, rfl⟩
  · rw [if_neg hLimit] at hWalk
    refine Or.inr ⟨Nat.lt_of_not_le hLimit, ?_⟩
    rcases Option.bind_eq_some_iff.mp hWalk with
      ⟨prevTag, _, hRest⟩
    by_cases hSelf : prevTag = tag
    · rw [if_pos hSelf] at hRest
      rw [← Option.some.inj hRest]
      exact Or.inl rfl
    · rw [if_neg hSelf] at hRest
      rcases Option.bind_eq_some_iff.mp hRest with
        ⟨⟨known, infos⟩, _, hNext⟩
      by_cases hKnown : known = true
      · simp only [hKnown, if_true] at hNext
        rw [← Option.some.inj hNext]
        exact Or.inl rfl
      · simp only [hKnown] at hNext
        exact Or.inr ⟨prevTag, infos, hNext⟩

/- The inner loop only adds tags. -/
theorem walkPath_grows
    (hWalk :
      walkPath backRefs prevNode start limit cnt fuel tag s =
        some s') :
    s.nodesToPathNum <+: s'.nodesToPathNum := by
  induction fuel generalizing tag s with
  | zero => simp [walkPath] at hWalk
  | succ fuel ih =>
      rcases walkPath_cases hWalk with
        ⟨_, hNodes⟩ | ⟨_, hNodes | ⟨prevTag, infos, hRest⟩⟩
      · rw [hNodes]
        split
        · exact List.prefix_append _ _
        · exact List.prefix_refl _
      · rw [hNodes]
      · exact (List.prefix_append _ _).trans (ih hRest)

/- The inner loop stops at the limit. -/
theorem walkPath_length_le
    (hWalk :
      walkPath backRefs prevNode start limit cnt fuel tag s =
        some s') :
    s'.nodesToPathNum.length ≤
      max limit s.nodesToPathNum.length +
        if cnt = 1 then 1 else 0 := by
  induction fuel generalizing tag s with
  | zero => simp [walkPath] at hWalk
  | succ fuel ih =>
      rcases walkPath_cases hWalk with
        ⟨_, hNodes⟩ |
          ⟨hLess, hNodes | ⟨prevTag, infos, hRest⟩⟩
      · rw [hNodes]
        split
        · rw [List.length_append, List.length_singleton]
          omega
        · omega
      · rw [hNodes]
        omega
      · have hLe := ih hRest
        rw [List.length_append, List.length_singleton] at hLe
        omega

/- One round of the outer loop. -/
theorem walkPaths_cases
    {roots : List jlong}
    (hWalk :
      walkPaths backRefs prevNode start objectsNumber limit
        fuel (tag :: roots) cnt s = some s') :
    (toSize objectsNumber ≤ s.nodesToPathNum.length ∧
        s' = s) ∨
      (s.nodesToPathNum.length < toSize objectsNumber ∧
        ∃ t,
          walkPath backRefs prevNode start limit (cnt + 1)
              fuel tag
              ⟨s.nodesToPathNum ++ [(tag, cnt)],
                insertRootInfos backRefs tag
                  s.tagToInfos⟩ = some t ∧
            walkPaths backRefs prevNode start objectsNumber
              limit fuel roots (cnt + 1) t = some s') := by
  rw [walkPaths] at hWalk
  by_cases hMore :
      s.nodesToPathNum.length < toSize objectsNumber
  · rw [if_pos hMore] at hWalk
    rcases Option.bind_eq_some_iff.mp hWalk with
      ⟨t, hFirst, hRest⟩
    exact Or.inr ⟨hMore, t, hFirst, hRest⟩
  · rw [if_neg hMore] at hWalk
    exact Or.inl
      ⟨Nat.le_of_not_lt hMore, (Option.some.inj hWalk).symm⟩

theorem walkPaths_grows
    {roots : List jlong}
    (hWalk :
      walkPaths backRefs prevNode start objectsNumber limit
        fuel roots cnt s = some s') :
    s.nodesToPathNum <+: s'.nodesToPathNum := by
  induction roots generalizing cnt s with
  | nil =>
      rw [← Option.some.inj hWalk]
  | cons tag roots ih =>
      rcases walkPaths_cases hWalk with
        ⟨_, hEq⟩ | ⟨_, t, hFirst, hRest⟩
      · rw [hEq]
      · exact ((List.prefix_append _ _).trans
          (walkPath_grows hFirst)).trans (ih hRest)

/-
  A limit that leaves room for the start and one more tag
  keeps the number of tags below the number of objects.
-/
theorem walkPaths_length_le
    {roots : List jlong}
    (hLimit : limit + 1 ≤ toSize objectsNumber)
    (hTwo : 2 ≤ toSize objectsNumber)
    (hLength :
      s.nodesToPathNum.length ≤ toSize objectsNumber)
    (hFirst : cnt = 0 → s.nodesToPathNum.length = 0)
    (hWalk :
      walkPaths backRefs prevNode start objectsNumber limit
        fuel roots cnt s = some s') :
    s'.nodesToPathNum.length ≤ toSize objectsNumber := by
  induction roots generalizing cnt s with
  | nil =>
      rw [← Option.some.inj hWalk]
      exact hLength
  | cons tag roots ih =>
      rcases walkPaths_cases hWalk with
        ⟨_, hEq⟩ | ⟨hMore, t, hWalkFirst, hRest⟩
      · rw [hEq]
        exact hLength
      · refine ih ?_ (fun hZero => by omega) hRest
        have hLe := walkPath_length_le hWalkFirst
        rw [List.length_append, List.length_singleton] at hLe
        by_cases hCnt : cnt = 0
        · have hNone := hFirst hCnt
          rw [if_pos (by omega)] at hLe
          omega
        · rw [if_neg (by omega)] at hLe
          omega

end Growth

------------------------------------------------------------
-- The Number of Objects
------------------------------------------------------------

section Number

variable {g : RecordedGraph}
variable {start : jlong}
variable {pathsNumber : Int32}
variable {depth : jlong → Nat}
variable {found : Search}

/- The tags on the chains of the first `k` roots. -/
def FirstChains
    (prevNode : jlong → Option jlong)
    (roots : List jlong)
    (k : Nat)
    (chain : Finset jlong) : Prop :=
  ∀ t, t ∈ chain ↔
    ∃ r ∈ roots.take k, OnChain prevNode r t

/- Complete paths emit the tags of their chains. -/
theorem Emitted.card_eq
    {backRefs : jlong → List ReferenceInfo}
    {prevNode : jlong → Option jlong}
    {done rest : List jlong}
    {s : Paths}
    (hEmitted :
      Emitted backRefs start prevNode depth done [] [] s)
    {chain : Finset jlong}
    (hChain :
      FirstChains prevNode (done ++ rest) done.length
        chain) :
    chain.card = s.nodesToPathNum.length := by
  have hEq : chain = s.tags.toFinset := by
    ext t
    rw [hChain t, List.take_left, List.mem_toFinset]
    constructor
    · rintro ⟨r, hRoot, hOn⟩
      exact hEmitted.mem_of_onChain hRoot hOn
    · exact fun hMem => hEmitted.onChain hMem
  rw [hEq, List.toFinset_card_of_nodup hEmitted.nodup,
    s.length_tags]

/- Later roots only add to the chains. -/
theorem FirstChains.length_le
    {prevNode : jlong → Option jlong}
    {done rest tags : List jlong}
    {k : Nat}
    {chain : Finset jlong}
    (hChain : FirstChains prevNode (done ++ rest) k chain)
    (hLe : done.length ≤ k)
    (hNodup : tags.Nodup)
    (hOn : ∀ t ∈ tags, ∃ q ∈ done, OnChain prevNode q t) :
    tags.length ≤ chain.card := by
  apply length_le_card_of_mem hNodup
  intro t hMem
  rcases hOn t hMem with ⟨q, hQ, hOnQ⟩
  refine (hChain t).mpr ⟨q, ?_, hOnQ⟩
  rw [List.take_append, List.take_of_length_le hLe]
  exact List.mem_append_left _ hQ

/- The chains of the first `k` roots have fewer tags. -/
def FewerChained
    (prevNode : jlong → Option jlong)
    (roots : List jlong)
    (wanted k : Nat) : Prop :=
  ∀ chain, FirstChains prevNode roots k chain →
    chain.card < wanted

/-
  The paths of the roots `done` are whole, with fewer tags
  before the last of them, or there are too many tags and the
  chains of the first roots never have the number wanted.
-/
def Counted
    (backRefs : jlong → List ReferenceInfo)
    (start : jlong)
    (prevNode : jlong → Option jlong)
    (depth : jlong → Nat)
    (roots : List jlong)
    (wanted : Nat)
    (done : List jlong)
    (s : Paths) : Prop :=
  (WholePaths backRefs start prevNode depth done s ∧
    ∀ k < done.length,
      FewerChained prevNode roots wanted k) ∨
  (wanted < s.nodesToPathNum.length ∧
    ∀ k chain, FirstChains prevNode roots k chain →
      chain.card ≠ wanted)

/- One more path keeps what is counted. -/
theorem Explored.walk_counted
    (hStart : start ∈ g.tags)
    (hExplored :
      Explored g.backRefs start pathsNumber depth found)
    {wanted limit : Nat}
    {done rest : List jlong}
    {r : jlong}
    {s : Paths}
    (hLimit : wanted < limit)
    (hRoots : found.foundRoots = done ++ r :: rest)
    (hCounted :
      Counted g.backRefs start found.prevTag depth
        found.foundRoots wanted done s)
    (hMore : s.nodesToPathNum.length < wanted) :
    ∃ s',
      (∃ n, ∀ fuel, n ≤ fuel →
        walkPath g.backRefs found.prevTag start limit
            (done.length + 1) fuel r
            ⟨s.nodesToPathNum ++ [(r, done.length)],
              insertRootInfos g.backRefs r s.tagToInfos⟩ =
          some s') ∧
      Counted g.backRefs start found.prevTag depth
        found.foundRoots wanted (done ++ [r]) s' := by
  rcases hCounted with ⟨hWhole, hBefore⟩ | ⟨hFull, _⟩
  · -- the chains so far are those that are emitted
    have hFewer :
        ∀ k ≤ done.length,
          FewerChained found.prevTag found.foundRoots wanted
            k := by
      intro k hLe
      rcases Nat.lt_or_eq_of_le hLe with hLt | hEq
      · exact hBefore k hLt
      · intro chain hChain
        rw [hEq, hRoots] at hChain
        rw [hWhole.emitted.card_eq hChain]
        exact hMore
    have hLength :
        (done ++ [r]).length = done.length + 1 := by
      rw [List.length_append, List.length_singleton]
    rcases hExplored.walk_whole hStart limit hRoots hWhole
      with
      ⟨s', hWalk,
        hNext | ⟨tags, hNodup, hTags, hShown, hOn⟩⟩
    · refine ⟨s', hWalk, Or.inl ⟨hNext, ?_⟩⟩
      intro k hLt
      rw [hLength] at hLt
      exact hFewer k (Nat.le_of_lt_succ hLt)
    · refine ⟨s', hWalk, Or.inr ⟨?_, ?_⟩⟩
      · rw [← s'.length_tags]
        omega
      · intro k chain hChain hEq
        by_cases hLe : k ≤ done.length
        · have hLess := hFewer k hLe chain hChain
          omega
        · have hSplit :
              found.foundRoots = (done ++ [r]) ++ rest := by
            rw [hRoots, List.append_assoc]
            rfl
          rw [hSplit] at hChain
          have hCard :=
            hChain.length_le (by omega) hNodup hOn
          omega
  · omega

/- What is counted, once the loop has ended. -/
theorem Explored.counted_length_le_iff
    (hExplored :
      Explored g.backRefs start pathsNumber depth found)
    {wanted : Nat}
    {done rest : List jlong}
    {s : Paths}
    (hMany : wanted < found.foundRoots.length)
    (hSplit : found.foundRoots = done ++ rest)
    (hEnd : rest = [] ∨ wanted ≤ s.nodesToPathNum.length)
    (hCounted :
      Counted g.backRefs start found.prevTag depth
        found.foundRoots wanted done s) :
    s.nodesToPathNum.length ≤ wanted ↔
      ∃ k chain,
        FirstChains found.prevTag found.foundRoots k chain ∧
          chain.card = wanted := by
  rcases hCounted with
    ⟨⟨hEmitted, _⟩, hBefore⟩ | ⟨hFull, hNone⟩
  · have hAll : done.length ≤ s.nodesToPathNum.length := by
      have hNodup := hExplored.found.nodup
      rw [hSplit] at hNodup
      rw [← s.length_tags]
      exact ((List.nodup_append.mp hNodup).1.subperm
        hEmitted.roots_mem).length_le
    have hEnough : wanted ≤ s.nodesToPathNum.length := by
      rcases hEnd with hNil | hFull
      · rw [hSplit, hNil, List.append_nil] at hMany
        omega
      · exact hFull
    constructor
    · intro hLe
      refine ⟨done.length, s.tags.toFinset, ?_, ?_⟩
      · intro t
        rw [hSplit, List.take_left, List.mem_toFinset]
        constructor
        · exact fun hMem => hEmitted.onChain hMem
        · rintro ⟨r, hRoot, hOn⟩
          exact hEmitted.mem_of_onChain hRoot hOn
      · rw [List.toFinset_card_of_nodup hEmitted.nodup,
          s.length_tags]
        omega
    · rintro ⟨k, chain, hChain, hEq⟩
      have hLe : done.length ≤ k := by
        by_contra hLt
        have hLess :=
          hBefore k (Nat.lt_of_not_le hLt) chain hChain
        omega
      rw [hSplit] at hChain
      have hCard :=
        hChain.length_le hLe hEmitted.nodup
          (fun _ hMem => hEmitted.onChain hMem)
      rw [s.length_tags] at hCard
      omega
  · constructor
    · intro hLe
      omega
    · rintro ⟨k, chain, hChain, hEq⟩
      exact absurd hEq (hNone k chain hChain)

/-
  When there are more roots than objects wanted, the paths
  are walked without a limit until enough tags are emitted.
-/
theorem Explored.length_le_iff
    (hStart : start ∈ g.tags)
    (hExplored :
      Explored g.backRefs start pathsNumber depth found)
    {objectsNumber : Int32}
    {limit : Nat}
    (hMany :
      toSize objectsNumber < found.foundRoots.length)
    (hLimit : toSize objectsNumber < limit) :
    ∃ s,
      (∃ n, ∀ fuel, n ≤ fuel →
        walkPaths g.backRefs found.prevTag start
          objectsNumber limit fuel found.foundRoots 0
          ⟨[], fun _ => none⟩ = some s) ∧
      (s.nodesToPathNum.length ≤ toSize objectsNumber ↔
        ∃ k chain,
          FirstChains found.prevTag found.foundRoots k
              chain ∧
            chain.card = toSize objectsNumber) := by
  have hInit :
      Counted g.backRefs start found.prevTag depth
        found.foundRoots (toSize objectsNumber) []
        ⟨[], fun _ => none⟩ :=
    Or.inl ⟨WholePaths.init,
      fun k hLt => absurd hLt (Nat.not_lt_zero k)⟩
  rcases walkPaths_rule objectsNumber found.foundRoots
      (Counted g.backRefs start found.prevTag depth
        found.foundRoots (toSize objectsNumber))
      (fun _ _ _ _ hRoots hCounted hMore =>
        hExplored.walk_counted hStart hLimit hRoots hCounted
          hMore)
      [] found.foundRoots rfl hInit with
    ⟨done, rest, s, hSplit, hEnd, hCounted, hRun⟩
  exact ⟨s, hRun,
    hExplored.counted_length_le_iff hMany hSplit hEnd
      hCounted⟩

/-
  The number of tags stays below the number of objects wanted
  unless there are more roots than that.  Then the difference
  wraps around, and the number is kept only if the chains of
  the first few roots have exactly that many tags.
-/
theorem length_le_objectsNumber_iff
    (g : RecordedGraph)
    (start : jlong)
    (pathsNumber objectsNumber : Int32)
    (fuel : Nat)
    (found : Search)
    (hStart : start ∈ g.tags)
    (hPaths : 1 ≤ pathsNumber.toInt)
    (hObjects : 2 ≤ objectsNumber.toInt)
    (hSearch :
      search g.backRefs start pathsNumber fuel = some found) :
    ∃ s,
      (∃ n, ∀ fuel, n ≤ fuel →
        createPaths g.backRefs found.prevTag start
          objectsNumber fuel found.foundRoots = some s) ∧
      ((s.nodesToPathNum.length : Int) ≤
          objectsNumber.toInt ↔
        (found.foundRoots.length : Int) ≤
            objectsNumber.toInt ∨
          ∃ k chain,
            FirstChains found.prevTag found.foundRoots k
                chain ∧
              (chain.card : Int) = objectsNumber.toInt) := by
  rcases explored_of_search (g := g.toBackReferenceGraph)
      hStart hSearch with ⟨depth, hExplored⟩
  have hSize :=
    toSize_pos (show 1 ≤ objectsNumber.toInt by omega)
  by_cases hFew :
      (found.foundRoots.length : Int) ≤ objectsNumber.toInt
  · rcases createPaths_assembled hExplored.tree
        (RecordedGraph.ne_rootTag hStart) objectsNumber
        (fun r hRoot =>
          ⟨(hExplored.found.rootAt r hRoot).1,
            hExplored.discovered hRoot⟩) with
      ⟨s, ⟨n, hRun⟩, _⟩
    refine ⟨s, ⟨n, hRun⟩, ?_⟩
    refine iff_of_true ?_ (Or.inl hFew)
    have hWalk := hRun n (le_refl n)
    unfold createPaths at hWalk
    cases hRoots : found.foundRoots with
    | nil =>
        rw [hRoots] at hWalk
        rw [← Option.some.inj hWalk]
        exact le_trans (by decide) hObjects
    | cons r rest =>
        have hLimit :=
          pathsLimit_of_le objectsNumber
            found.foundRoots.length hFew
        have hPos : 0 < found.foundRoots.length := by
          rw [hRoots]
          exact Nat.succ_pos _
        have hLe :=
          walkPaths_length_le (by omega) (by omega)
            (Nat.zero_le _) (fun _ => rfl) hWalk
        omega
  · have hMany :
        toSize objectsNumber < found.foundRoots.length := by
      omega
    have hLimit :
        toSize objectsNumber <
          pathsLimit objectsNumber
            found.foundRoots.length := by
      have hPathsSize := toSize_pos hPaths
      have hUpper := pathsNumber.toInt_lt
      have hRootsSize := hExplored.few
      unfold pathsLimit
      omega
    rcases hExplored.length_le_iff hStart hMany hLimit with
      ⟨s, hRun, hIff⟩
    refine ⟨s, hRun, ?_⟩
    rw [or_iff_right hFew, ← hSize]
    simp only [Nat.cast_le, Nat.cast_inj]
    exact hIff

/- A limit of five objects for one path. -/
theorem length_le_objectsNumber_iff_sample :
    ∃ found s fuel,
      search sampleGraph.backRefs 1 2 4 = some found ∧
        createPaths sampleGraph.backRefs found.prevTag 1 5
          fuel found.foundRoots = some s ∧
        ((s.nodesToPathNum.length : Int) ≤
            (5 : Int32).toInt ↔
          (found.foundRoots.length : Int) ≤
              (5 : Int32).toInt ∨
            ∃ k chain,
              FirstChains found.prevTag found.foundRoots k
                  chain ∧
                (chain.card : Int) = (5 : Int32).toInt) := by
  have hSearch :
      ∃ found,
        search sampleGraph.backRefs 1 2 4 = some found :=
    ⟨_, rfl⟩
  rcases hSearch with ⟨found, hFound⟩
  rcases length_le_objectsNumber_iff sampleRecordedGraph 1 2
      5 4 found (by decide) (by decide) (by decide) hFound
    with ⟨s, ⟨n, hRun⟩, hIff⟩
  exact ⟨found, s, n, hFound, hRun n (le_refl n), hIff⟩

/-
  Three tags with root references refer to 2, which refers
  to 1.
-/
def threeRootsGraph : RecordedGraph where
  tags := {1, 2, 3, 4, 5}
  backRefs := fun tag =>
    if tag = 1 then
      [⟨2, .field, .index 0⟩]
    else if tag = 2 then
      [⟨3, .field, .index 0⟩, ⟨4, .field, .index 0⟩,
        ⟨5, .field, .index 0⟩]
    else if tag = 3 ∨ tag = 4 ∨ tag = 5 then
      [⟨rootTag, .thread, .none⟩]
    else
      []
  closed := by
    rintro tag hTag parentTag ⟨hRoot, info, hInfo, rfl⟩
    simp only [Finset.mem_insert,
      Finset.mem_singleton] at hTag
    rcases hTag with rfl | rfl | rfl | rfl | rfl <;>
      simp at hInfo <;>
      first
        | (rcases hInfo with rfl | rfl | rfl <;> decide)
        | (subst hInfo; first | decide | exact absurd rfl hRoot)
  root_not_mem := by decide
  reported := by decide

/- With three roots and two objects three tags are emitted. -/
theorem not_length_le_objectsNumber :
    ¬ ∀ (g : RecordedGraph) (start : jlong)
        (pathsNumber objectsNumber : Int32) (fuel : Nat)
        (found : Search) (s : Paths),
      start ∈ g.tags → 1 ≤ pathsNumber.toInt →
        2 ≤ objectsNumber.toInt →
          search g.backRefs start pathsNumber fuel =
              some found →
            createPaths g.backRefs found.prevTag start
                objectsNumber fuel found.foundRoots =
              some s →
              (s.nodesToPathNum.length : Int) ≤
                objectsNumber.toInt := by
  intro hAll
  have hRun :
      ∃ found s,
        search threeRootsGraph.backRefs 1 3 6 = some found ∧
          createPaths threeRootsGraph.backRefs found.prevTag 1
              2 6 found.foundRoots = some s ∧
            s.nodesToPathNum.length = 3 :=
    ⟨_, _, rfl, rfl, by decide⟩
  rcases hRun with ⟨found, s, hSearch, hCreate, hLength⟩
  have hLe :=
    hAll threeRootsGraph 1 3 2 6 found s (by decide)
      (by decide) (by decide) hSearch hCreate
  rw [hLength] at hLe
  exact absurd hLe (by decide)

end Number

------------------------------------------------------------
-- Marks of Cut Paths
------------------------------------------------------------

/-
  The tags emitted for `paths`, one path after the other.  The
  start follows a first path that was cut off.
-/
inductive Laid
    (prevNode : jlong → Option jlong)
    (start : jlong) :
    List (List jlong) → List jlong → Prop
  | nil : Laid prevNode start [] []
  | path {paths : List (List jlong)}
      {tags path : List jlong} :
      Laid prevNode start paths tags →
        path.IsChain (fun a b => prevNode a = some b) →
          Laid prevNode start (paths ++ [path])
            (tags ++ path)
  | cutFirst {path : List jlong} :
      path.IsChain (fun a b => prevNode a = some b) →
        Laid prevNode start [path] (path ++ [start])

/-
  A path that ends at `y` was cut off before it reached the
  start or an emitted tag: no link leads on from `y`.
-/
def isCut
    (prevNode : jlong → Option jlong)
    (start : jlong)
    (tagToInfos : Infos)
    (y : jlong) : Bool :=
  y != start &&
    (prevNode y).all (fun p => linkCount tagToInfos p y == 0)

/-
  No tag is emitted twice, the start is emitted, and the
  marks shown for it, and for no other tag, are those of the
  last tags of the cut paths, with their distances from it.
-/
def TruncatesExactly
    (prevNode : jlong → Option jlong)
    (start : jlong)
    (roots : List jlong)
    (s : Paths) : Prop :=
  s.tags.Nodup ∧ start ∈ s.tags ∧
    (∀ t, t ≠ start → truncations s.tagToInfos t = []) ∧
    ∃ (paths : List (List jlong)) (steps : jlong → Nat),
      Laid prevNode start paths s.tags ∧
      paths.map List.head? = roots.map some ∧
      truncations s.tagToInfos start =
        ((paths.filterMap List.getLast?).filter
          (isCut prevNode start s.tagToInfos)).map
            (truncation steps) ∧
      ∀ y ∈ paths.filterMap List.getLast?,
        isCut prevNode start s.tagToInfos y = true →
          y ≠ start ∧ 0 < steps y ∧
            StepsToStart prevNode start y (steps y)

section Marks

variable {backRefs : jlong → List ReferenceInfo}
variable {start : jlong}
variable {prevNode : jlong → Option jlong}
variable {depth : jlong → Nat}
variable {roots cuts tags : List jlong}
variable {paths : List (List jlong)}
variable {s : Paths}

/- The last tags are emitted in the order of the paths. -/
theorem Laid.lasts_sublist
    (hLaid : Laid prevNode start paths tags) :
    (paths.filterMap List.getLast?).Sublist tags := by
  have hOne :
      ∀ path : List jlong,
        ([path].filterMap List.getLast?).Sublist path := by
    intro path
    cases hLast : path.getLast? with
    | none => simp [hLast]
    | some y =>
        simpa [hLast] using List.mem_of_getLast? hLast
  induction hLaid with
  | nil => exact List.Sublist.refl _
  | @path paths tags path _ _ ih =>
      rw [List.filterMap_append]
      exact ih.append (hOne path)
  | @cutFirst path _ =>
      exact (hOne path).trans (List.sublist_append_left _ _)

/- A sublist without repetitions is its own filter. -/
theorem filter_mem_eq_of_sublist
    {xs ys : List jlong}
    (hSublist : xs.Sublist ys)
    (hNodup : ys.Nodup) :
    ys.filter (fun y => decide (y ∈ xs)) = xs := by
  induction hSublist with
  | slnil => rfl
  | @cons xs ys a hSub ih =>
      rcases List.nodup_cons.mp hNodup with ⟨hNot, hRest⟩
      have hNotMem : a ∉ xs :=
        fun hMem => hNot (hSub.subset hMem)
      rw [List.filter_cons_of_neg (by simpa using hNotMem)]
      exact ih hRest
  | @cons_cons xs ys a hSub ih =>
      rcases List.nodup_cons.mp hNodup with ⟨hNot, hRest⟩
      rw [List.filter_cons_of_pos (by simp)]
      have hSame :
          ys.filter (fun y => decide (y ∈ a :: xs)) =
            ys.filter (fun y => decide (y ∈ xs)) := by
        apply List.filter_congr
        intro y hMem
        have hNe : y ≠ a := by
          intro hEq
          rw [hEq] at hMem
          exact hNot hMem
        simp [hNe]
      rw [hSame, ih hRest]

/- The open ends are the tags without a link. -/
theorem Emitted.isCut_iff
    (hTree : PrevTree backRefs start prevNode depth)
    (hStart : start ≠ rootTag)
    (hEmitted :
      Emitted backRefs start prevNode depth roots cuts cuts
        s)
    (hNot : start ∉ cuts)
    {y : jlong}
    (hMem : y ∈ s.tags) :
    isCut prevNode start s.tagToInfos y = true ↔
      y ∈ cuts := by
  have hPrev := hEmitted.discovered y hMem
  have hNe := hTree.ne_rootTag hStart hPrev
  rcases Option.ne_none_iff_exists'.mp hPrev with ⟨p, hP⟩
  unfold isCut
  rw [hP, Option.all_some, hEmitted.links p y hNe]
  constructor
  · intro hCut
    by_contra hOpen
    rcases Bool.and_eq_true_iff.mp hCut with ⟨hNeStart, hNone⟩
    rw [if_pos ⟨hMem, by simpa using hNeStart, hOpen, hP⟩]
      at hNone
    exact absurd hNone (by decide)
  · intro hCut
    rw [if_neg (fun h => h.2.2.1 hCut)]
    have hNeStart : y ≠ start := by
      intro hEq
      rw [hEq] at hCut
      exact hNot hCut
    simpa using hNeStart

/- Between two paths, some of which may have been cut off. -/
structure CutPaths
    (backRefs : jlong → List ReferenceInfo)
    (start : jlong)
    (prevNode : jlong → Option jlong)
    (depth : jlong → Nat)
    (limit : Nat)
    (done cuts : List jlong)
    (paths : List (List jlong))
    (s : Paths) : Prop where
  emitted :
    Emitted backRefs start prevNode depth done cuts cuts s
  laid : Laid prevNode start paths s.tags
  heads : paths.map List.head? = done.map some
  ends : cuts.Sublist (paths.filterMap List.getLast?)
  base :
    (done = [] ∧ s.tags = []) ∨
      (done ≠ [] ∧ start ∈ s.tags)
  not_start : start ∉ cuts
  short : s.tags.length ≤ limit + done.length

/- A path that is complete or cut off before the start. -/
theorem CutPaths.walked
    {limit : Nat}
    {done : List jlong}
    {r : jlong}
    {s' : Paths}
    (hCut :
      CutPaths backRefs start prevNode depth limit done cuts
        paths s)
    (hLimit : 0 < limit)
    (hWalked :
      Walked backRefs start prevNode depth limit done cuts r
        s s')
    (hNoSlip :
      done = [] → depth start = 0 ∧ limit ≠ depth r + 1) :
    ∃ cuts' paths',
      CutPaths backRefs start prevNode depth limit
        (done ++ [r]) cuts' paths' s' := by
  have hHeads :
      ∀ path : List jlong, path.head? = some r →
        (paths ++ [path]).map List.head? =
          (done ++ [r]).map some := by
    intro path hHead
    rw [List.map_append, List.map_append, hCut.heads,
      List.map_singleton, hHead]
    rfl
  have hLasts :
      ∀ (path : List jlong) y, path.getLast? = some y →
        (paths ++ [path]).filterMap List.getLast? =
          paths.filterMap List.getLast? ++ [y] := by
    intro path y hLast
    rw [List.filterMap_append]
    simp [hLast]
  cases hWalked with
  | @complete path y hTo hTags hLess hMem hEmitted =>
      refine ⟨cuts, paths ++ [path], hEmitted, ?_,
        hHeads path hTo.head, ?_, Or.inr ⟨by simp, hMem⟩,
        hCut.not_start, by omega⟩
      · rw [hTags]
        exact Laid.path hCut.laid hTo.chain
      · rw [hLasts path y hTo.last]
        exact hCut.ends.trans (List.sublist_append_left _ _)
  | @cut path y hTo hTags hNe hLength hMem hEmitted =>
      refine ⟨cuts ++ [y], paths ++ [path], hEmitted, ?_,
        hHeads path hTo.head, ?_, Or.inr ⟨by simp, hMem⟩, ?_,
        ?_⟩
      · rw [hTags]
        by_cases hNil : done = []
        · have hPaths : paths = [] := by
            have hHeadsNil := hCut.heads
            rw [hNil, List.map_nil] at hHeadsNil
            exact List.map_eq_nil_iff.mp hHeadsNil
          have hNone : s.tags = [] := by
            rcases hCut.base with ⟨_, hNone⟩ | ⟨hSome, _⟩
            · exact hNone
            · exact absurd hNil hSome
          rw [if_pos hNil, hPaths, hNone]
          exact Laid.cutFirst hTo.chain
        · rw [if_neg hNil, List.append_nil]
          exact Laid.path hCut.laid hTo.chain
      · rw [hLasts path y hTo.last]
        exact hCut.ends.append (List.Sublist.refl [y])
      · rw [List.mem_append, List.mem_singleton]
        rintro (hOld | hEq)
        · exact hCut.not_start hOld
        · exact hNe hEq.symm
      · have hShort := hCut.short
        have hDone :
            (done ++ [r]).length = done.length + 1 := by
          simp
        rw [hTags, List.length_append, hLength, hDone]
        rcases hCut.base with ⟨hNil, hNone⟩ | ⟨hSome, _⟩
        · rw [if_pos hNil, hNone, List.length_singleton,
            List.length_nil]
          omega
        · rw [if_neg hSome, List.length_nil]
          omega
  | @slip path hNil hTo hTags hLength hNodup =>
      rcases hNoSlip hNil with ⟨hZero, hNe⟩
      have hSum := hTo.length
      omega

/- The marks of the paths, once all of them are walked. -/
theorem CutPaths.truncatesExactly
    {limit : Nat}
    (hTree : PrevTree backRefs start prevNode depth)
    (hZero : depth start = 0)
    (hStart : start ≠ rootTag)
    (hCut :
      CutPaths backRefs start prevNode depth limit roots cuts
        paths s)
    (hSome : roots ≠ []) :
    TruncatesExactly prevNode start roots s := by
  have hEmitted := hCut.emitted
  have hMem : start ∈ s.tags := by
    rcases hCut.base with ⟨hNil, _⟩ | ⟨_, hMem⟩
    · exact absurd hNil hSome
    · exact hMem
  have hSublist := hCut.laid.lasts_sublist
  have hFilter :
      (paths.filterMap List.getLast?).filter
          (isCut prevNode start s.tagToInfos) =
        cuts := by
    calc
      (paths.filterMap List.getLast?).filter
          (isCut prevNode start s.tagToInfos)
          = (paths.filterMap List.getLast?).filter
              (fun y => decide (y ∈ cuts)) := by
            apply List.filter_congr
            intro y hY
            exact Bool.eq_iff_iff.mpr
              ((hEmitted.isCut_iff hTree hStart
                hCut.not_start (hSublist.subset hY)).trans
                  decide_eq_true_iff.symm)
      _ = cuts :=
            filter_mem_eq_of_sublist hCut.ends
              (hEmitted.nodup.sublist hSublist)
  refine ⟨hEmitted.nodup, hMem, ?_, paths, depth, hCut.laid,
    hCut.heads, ?_, ?_⟩
  · intro t hNe
    rw [hEmitted.truncated t, if_neg hNe]
  · rw [hEmitted.truncated start, if_pos rfl, hFilter]
  · intro y hY hIsCut
    have hMemY := hSublist.subset hY
    have hInCuts :=
      (hEmitted.isCut_iff hTree hStart hCut.not_start
        hMemY).mp hIsCut
    have hPrev := hEmitted.discovered y hMemY
    have hNe : y ≠ start := by
      intro hEq
      rw [hEq] at hInCuts
      exact hCut.not_start hInCuts
    exact ⟨hNe, hTree.depth_pos hPrev hNe,
      hTree.stepsToStart hZero hPrev⟩

end Marks

section Truncation

variable {g : RecordedGraph}
variable {start : jlong}
variable {pathsNumber : Int32}
variable {depth : jlong → Nat}
variable {found : Search}

/- The limit is not that of the first path. -/
theorem Explored.truncatesExactly
    (hStart : start ∈ g.tags)
    (hExplored :
      Explored g.backRefs start pathsNumber depth found)
    {objectsNumber : Int32}
    {limit : Nat}
    {r : jlong}
    {rest : List jlong}
    (hRoots : found.foundRoots = r :: rest)
    (hLimit : 0 < limit)
    (hObjects :
      limit + found.foundRoots.length =
        toSize objectsNumber)
    (hNe : limit ≠ depth r + 1) :
    ∃ s,
      (∃ n, ∀ fuel, n ≤ fuel →
        walkPaths g.backRefs found.prevTag start
          objectsNumber limit fuel found.foundRoots 0
          ⟨[], fun _ => none⟩ = some s) ∧
      TruncatesExactly found.prevTag start found.foundRoots
        s := by
  rcases walkPaths_rule objectsNumber found.foundRoots
      (fun done s => ∃ cuts paths,
        CutPaths g.backRefs start found.prevTag depth limit
          done cuts paths s)
      (by
        rintro done q rest' s hSplit ⟨cuts, paths, hCut⟩ _
        rcases hExplored.walk hStart limit hSplit
            hCut.emitted hCut.base with
          ⟨s', hWalk, hWalked⟩
        refine ⟨s', hWalk,
          hCut.walked hLimit hWalked ?_⟩
        intro hNil
        rw [hNil, hRoots] at hSplit
        rw [← (List.cons.inj hSplit).1]
        exact ⟨hExplored.start_depth, hNe⟩)
      [] found.foundRoots rfl
      ⟨[], [], Emitted.init, Laid.nil, rfl,
        List.Sublist.refl _, Or.inl ⟨rfl, rfl⟩,
        List.not_mem_nil, Nat.zero_le _⟩ with
    ⟨done, rest', s, hSplit, hEnd, ⟨cuts, paths, hCut⟩, hRun⟩
  have hNil : rest' = [] := by
    rcases hEnd with hNil | hFull
    · exact hNil
    · have hShort := hCut.short
      rw [s.length_tags] at hShort
      have hLength := congrArg List.length hSplit
      rw [List.length_append] at hLength
      exact List.length_eq_zero_iff.mp (by omega)
  rw [hNil, List.append_nil] at hSplit
  refine ⟨s, hRun, ?_⟩
  rw [hSplit]
  apply hCut.truncatesExactly hExplored.tree
    hExplored.start_depth (RecordedGraph.ne_rootTag hStart)
  rw [← hSplit, hRoots]
  exact List.cons_ne_nil r rest

/- A first path that ends at the limit repeats the start. -/
theorem Explored.not_nodup
    (hStart : start ∈ g.tags)
    (hExplored :
      Explored g.backRefs start pathsNumber depth found)
    {objectsNumber : Int32}
    {fuel : Nat}
    {r : jlong}
    {rest : List jlong}
    {s : Paths}
    (hRoots : found.foundRoots = r :: rest)
    (hObjects : 0 < toSize objectsNumber)
    (hFuel : depth r < fuel)
    (hRun :
      walkPaths g.backRefs found.prevTag start objectsNumber
        (depth r + 1) fuel found.foundRoots 0
        ⟨[], fun _ => none⟩ = some s) :
    ¬ s.tags.Nodup := by
  have hBase :
      (([] : List jlong) = [] ∧
          (⟨[], fun _ => none⟩ : Paths).tags = []) ∨
        (([] : List jlong) ≠ [] ∧
          start ∈ (⟨[], fun _ => none⟩ : Paths).tags) :=
    Or.inl ⟨rfl, rfl⟩
  rcases Emitted.init.walk
      hExplored.tree hExplored.start_depth
      (RecordedGraph.ne_rootTag hStart)
      (hExplored.untruncated hStart) (depth r + 1) hBase
      List.not_mem_nil
      (hExplored.discovered (hRoots ▸ List.mem_cons_self))
    with ⟨t, hWalk, hWalked⟩
  have hDup : ¬ t.tags.Nodup := by
    cases hWalked with
    | @complete path y hTo hTags hLess hMem hEmitted =>
        exfalso
        rw [hTags] at hMem hLess
        have hLe := hTo.descends start hMem
        have hLength := hTo.length
        rw [hExplored.start_depth] at hLe
        change path.length < depth r + 1 at hLess
        omega
    | @cut path y hTo hTags hNe hLength hMem hEmitted =>
        exfalso
        have hMemY : y ∈ t.tags := by
          rw [hTags]
          exact List.mem_append_left _ hTo.mem
        have hPos :=
          hExplored.tree.depth_pos
            (hEmitted.discovered y hMemY) hNe
        have hSum := hTo.length
        change path.length = max (depth r + 1) 1 at hLength
        omega
    | @slip path _ hTo hTags _ _ =>
        rw [hTags]
        intro hNodup
        exact (List.nodup_append.mp hNodup).2.2 start hTo.mem
          start (List.mem_singleton_self start) rfl
  rw [hRoots] at hRun
  rcases walkPaths_cases hRun with
    ⟨hFull, _⟩ | ⟨_, t', hFirst, hRest⟩
  · exact absurd hFull (Nat.not_le_of_lt hObjects)
  · have hSame : t' = t :=
      Option.some.inj (hFirst.symm.trans (hWalk fuel hFuel))
    intro hNodup
    apply hDup
    rw [← hSame]
    exact hNodup.sublist
      ((walkPaths_grows hRest).sublist.map Prod.fst)

/-
  When there is an object besides one for each root, the cuts
  are marked exactly unless the limit is the number of tags
  of the first path: then the start is emitted twice, and the
  complete path is marked as cut off.
-/
theorem truncatesExactly_iff
    (g : RecordedGraph)
    (start : jlong)
    (pathsNumber objectsNumber : Int32)
    (fuel : Nat)
    (found : Search)
    (r : jlong)
    (rest : List jlong)
    (hStart : start ∈ g.tags)
    (hSearch :
      search g.backRefs start pathsNumber fuel = some found)
    (hRoots : found.foundRoots = r :: rest)
    (hObjects :
      (found.foundRoots.length : Int) + 1 ≤
        objectsNumber.toInt) :
    ∃ s,
      (∃ n, ∀ fuel, n ≤ fuel →
        createPaths g.backRefs found.prevTag start
          objectsNumber fuel found.foundRoots = some s) ∧
      (TruncatesExactly found.prevTag start found.foundRoots
          s ↔
        ∀ d, StepsToStart found.prevTag start r d →
          objectsNumber.toInt - found.foundRoots.length ≠
            d + 1) := by
  rcases explored_of_search (g := g.toBackReferenceGraph)
      hStart hSearch with ⟨depth, hExplored⟩
  have hSize :=
    toSize_pos (show 1 ≤ objectsNumber.toInt by omega)
  have hLimit :=
    pathsLimit_of_le objectsNumber found.foundRoots.length
      (by omega)
  have hMem : r ∈ found.foundRoots := by
    rw [hRoots]
    exact List.mem_cons_self
  have hSteps :=
    hExplored.tree.stepsToStart hExplored.start_depth
      (hExplored.discovered hMem)
  by_cases hNe :
      pathsLimit objectsNumber found.foundRoots.length ≠
        depth r + 1
  · rcases hExplored.truncatesExactly hStart hRoots
        (by omega)
        (show pathsLimit objectsNumber
              found.foundRoots.length +
            found.foundRoots.length =
              toSize objectsNumber by omega)
        hNe with ⟨s, hRun, hExact⟩
    refine ⟨s, hRun, iff_of_true hExact ?_⟩
    intro d hD hEq
    rw [hD.unique hSteps] at hEq
    omega
  · have hEq := not_ne_iff.mp hNe
    rcases createPaths_assembled hExplored.tree
        (RecordedGraph.ne_rootTag hStart) objectsNumber
        (fun q hRoot =>
          ⟨(hExplored.found.rootAt q hRoot).1,
            hExplored.discovered hRoot⟩) with
      ⟨s, ⟨n, hRun⟩, _⟩
    refine ⟨s, ⟨n, hRun⟩, iff_of_false ?_ ?_⟩
    · intro hExact
      have hCreate := hRun (max n (depth r + 1)) (by omega)
      unfold createPaths at hCreate
      rw [hEq] at hCreate
      exact hExplored.not_nodup hStart hRoots
        (show 0 < toSize objectsNumber by omega) (by omega)
        hCreate hExact.1
    · intro hAll
      exact hAll (depth r) hSteps (by omega)

end Truncation

/- A limit of five objects, and a path of two tags. -/
theorem truncatesExactly_iff_sample :
    ∃ found s fuel,
      search sampleGraph.backRefs 1 2 4 = some found ∧
        createPaths sampleGraph.backRefs found.prevTag 1 5
          fuel found.foundRoots = some s ∧
        (TruncatesExactly found.prevTag 1 found.foundRoots
            s ↔
          ∀ d, StepsToStart found.prevTag 1 2 d →
            (5 : Int32).toInt - found.foundRoots.length ≠
              d + 1) := by
  have hSearch :
      ∃ found,
        search sampleGraph.backRefs 1 2 4 = some found ∧
          found.foundRoots = [2] :=
    ⟨_, rfl, by decide⟩
  rcases hSearch with ⟨found, hFound, hRoots⟩
  rcases truncatesExactly_iff sampleRecordedGraph 1 2 5 4
      found 2 [] (by decide) hFound hRoots
      (by rw [hRoots]; decide) with ⟨s, ⟨n, hRun⟩, hIff⟩
  exact ⟨found, s, n, hFound, hRun n (le_refl n), hIff⟩

/- With three objects the path of two tags is complete. -/
theorem not_truncatesExactly :
    ¬ ∀ (g : RecordedGraph) (start : jlong)
        (pathsNumber objectsNumber : Int32) (fuel : Nat)
        (found : Search) (s : Paths),
      start ∈ g.tags →
        search g.backRefs start pathsNumber fuel =
            some found →
          found.foundRoots ≠ [] →
            (found.foundRoots.length : Int) + 1 ≤
                objectsNumber.toInt →
              createPaths g.backRefs found.prevTag start
                  objectsNumber fuel found.foundRoots =
                some s →
                TruncatesExactly found.prevTag start
                  found.foundRoots s := by
  intro hAll
  have hRun :
      ∃ found s,
        search sampleGraph.backRefs 1 2 4 = some found ∧
          found.foundRoots = [2] ∧
            createPaths sampleGraph.backRefs found.prevTag 1
                3 4 found.foundRoots = some s ∧
              s.tags = [2, 1, 1] :=
    ⟨_, _, rfl, by decide, rfl, by decide⟩
  rcases hRun with ⟨found, s, hSearch, hRoots, hCreate, hTags⟩
  have hExact :=
    hAll sampleRecordedGraph 1 2 3 4 found s (by decide)
      hSearch (by rw [hRoots]; decide)
      (by rw [hRoots]; decide) hCreate
  have hNodup := hExact.1
  rw [hTags] at hNodup
  exact absurd hNodup (by decide)

end Roots

end MemoryAgent
