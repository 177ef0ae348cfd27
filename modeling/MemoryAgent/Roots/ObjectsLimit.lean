import MemoryAgent.Roots.EmittedPaths

/-
  The loop over the found roots when the limit for the number
  of objects leaves room for all of them: every path is
  complete, and its links lead to the start.

  Key definitions include:
    * `Roots.RecordedGraph`
    * `Roots.CompletePaths`

  Main results:
    * `Roots.walkPaths_rule`
    * `Roots.createPaths_complete`
    * `Roots.collectPaths_recorded`
-/

------------------------------------------------------------
-- The Outer Loop
------------------------------------------------------------

namespace MemoryAgent

namespace Roots

open ClosestGcRoots BreadthFirst

section Loop

variable {backRefs : jlong → List ReferenceInfo}
variable {start : jlong}
variable {prevNode : jlong → Option jlong}
variable {depth : jlong → Nat}
variable {limit : Nat}

/-
  The outer loop keeps what holds when one more path is
  walked, until the roots or the objects run out.
-/
theorem walkPaths_rule
    (objectsNumber : Int32)
    (roots : List jlong)
    (Q : List jlong → Paths → Prop)
    (hStep :
      ∀ done r rest s, roots = done ++ r :: rest →
        Q done s →
          s.nodesToPathNum.length < toSize objectsNumber →
            ∃ s',
              (∃ n, ∀ fuel, n ≤ fuel →
                walkPath backRefs prevNode start limit
                    (done.length + 1) fuel r
                    ⟨s.nodesToPathNum ++ [(r, done.length)],
                      insertRootInfos backRefs r
                        s.tagToInfos⟩ = some s') ∧
              Q (done ++ [r]) s')
    (done rest : List jlong)
    {s : Paths}
    (hRoots : roots = done ++ rest)
    (hQ : Q done s) :
    ∃ done' rest' s',
      roots = done' ++ rest' ∧
      (rest' = [] ∨
        toSize objectsNumber ≤ s'.nodesToPathNum.length) ∧
      Q done' s' ∧
      ∃ n, ∀ fuel, n ≤ fuel →
        walkPaths backRefs prevNode start objectsNumber limit
          fuel rest done.length s = some s' := by
  induction rest generalizing done s with
  | nil =>
      exact ⟨done, [], s, hRoots, Or.inl rfl, hQ, 0,
        fun _ _ => rfl⟩
  | cons r rest ih =>
      by_cases hMore :
          s.nodesToPathNum.length < toSize objectsNumber
      · rcases hStep done r rest s hRoots hQ hMore with
          ⟨t, ⟨m, hWalk⟩, hQ'⟩
        have hRoots' : roots = (done ++ [r]) ++ rest := by
          rw [hRoots, List.append_assoc]
          rfl
        rcases ih (done ++ [r]) hRoots' hQ' with
          ⟨done', rest', s', hSplit, hEnd, hQ'', n, hRest⟩
        refine ⟨done', rest', s', hSplit, hEnd, hQ'',
          max m n, ?_⟩
        intro fuel hFuel
        have hFirst := hWalk fuel (by omega)
        have hSecond := hRest fuel (by omega)
        rw [List.length_append, List.length_singleton]
          at hSecond
        simp [walkPaths, hMore, hFirst, hSecond]
      · refine ⟨done, r :: rest, s, hRoots,
          Or.inr (Nat.le_of_not_lt hMore), hQ, 0, ?_⟩
        intro fuel _
        simp [walkPaths, hMore]

/- Roots in the order of their depths are not met early. -/
theorem Emitted.fresh
    {roots openEnds cuts done rest : List jlong}
    {r : jlong}
    {s : Paths}
    (hEmitted :
      Emitted backRefs start prevNode depth done openEnds
        cuts s)
    (hNodup : roots.Nodup)
    (hSorted :
      roots.Pairwise (fun a b => depth a ≤ depth b))
    (hRoots : roots = done ++ r :: rest) :
    r ∉ s.tags := by
  intro hMem
  rw [hRoots] at hNodup hSorted
  rcases hEmitted.below r hMem with
    hOld | ⟨q, hQ, _, hLower⟩
  · exact (List.nodup_append.mp hNodup).2.2 r hOld r
      List.mem_cons_self rfl
  · have hLe :=
      (List.pairwise_append.mp hSorted).2.2 q hQ r
        List.mem_cons_self
    omega

/- Every emitted tag lies on the chain of a root. -/
theorem Emitted.onChain
    {openEnds cuts done : List jlong}
    {s : Paths}
    (hEmitted :
      Emitted backRefs start prevNode depth done openEnds
        cuts s)
    {y : jlong}
    (hMem : y ∈ s.tags) :
    ∃ r ∈ done, OnChain prevNode r y := by
  rcases hEmitted.below y hMem with hRoot | ⟨r, hR, hOn, _⟩
  · exact ⟨y, hRoot, Relation.ReflTransGen.refl⟩
  · exact ⟨r, hR, hOn⟩

/- Without cuts all chains are emitted. -/
theorem Emitted.mem_of_onChain
    {done : List jlong}
    {s : Paths}
    (hEmitted :
      Emitted backRefs start prevNode depth done [] [] s)
    {r y : jlong}
    (hRoot : r ∈ done)
    (hChain : OnChain prevNode r y) :
    y ∈ s.tags := by
  induction hChain with
  | refl => exact hEmitted.roots_mem r hRoot
  | @tail b c _ hPrev ih =>
      exact hEmitted.closed b ih List.not_mem_nil c hPrev

theorem length_le_card_of_mem
    {tags : List jlong}
    {chain : Finset jlong}
    (hNodup : tags.Nodup)
    (hMem : ∀ t ∈ tags, t ∈ chain) :
    tags.length ≤ chain.card := by
  rw [← List.toFinset_card_of_nodup hNodup]
  apply Finset.card_le_card
  intro t hT
  exact hMem t (List.mem_toFinset.mp hT)

/- Emitted tags are no more than the tags of the chains. -/
theorem length_le_card
    {done tags : List jlong}
    {chain : Finset jlong}
    (hChain :
      ∀ t, t ∈ chain ↔ ∃ r ∈ done, OnChain prevNode r t)
    (hNodup : tags.Nodup)
    (hOn : ∀ t ∈ tags, ∃ r ∈ done, OnChain prevNode r t) :
    tags.length ≤ chain.card :=
  length_le_card_of_mem hNodup
    (fun t hMem => (hChain t).mpr (hOn t hMem))

/- A path that meets the limit has that many tags. -/
theorem Walked.complete_or_full
    {roots cuts : List jlong}
    {r : jlong}
    {s s' : Paths}
    (hWalked :
      Walked backRefs start prevNode depth limit roots cuts r
        s s') :
    (start ∈ s'.tags ∧
        Emitted backRefs start prevNode depth
          (roots ++ [r]) cuts cuts s') ∨
      ∃ tags : List jlong, tags.Nodup ∧
        limit ≤ tags.length ∧
        tags.length ≤ s'.tags.length ∧
        ∀ t ∈ tags,
          ∃ q ∈ roots ++ [r], OnChain prevNode q t := by
  cases hWalked with
  | complete _ _ _ hMem hEmitted =>
      exact Or.inl ⟨hMem, hEmitted⟩
  | @cut path y hTo hTags _ hLength _ hEmitted =>
      have hNodup := hEmitted.nodup
      rw [hTags] at hNodup
      refine Or.inr ⟨s.tags ++ path,
        (List.nodup_append.mp hNodup).1, by omega, ?_, ?_⟩
      · rw [hTags]
        exact (List.sublist_append_left _ _).length_le
      · intro t hT
        apply hEmitted.onChain
        rw [hTags]
        exact List.mem_append_left _ hT
  | @slip path hNil hTo hTags hLength hNodup =>
      refine Or.inr ⟨path, hNodup, by omega, ?_, ?_⟩
      · rw [hTags, List.length_append]
        omega
      · exact fun t hT =>
          ⟨r, by simp, hTo.onChain t hT⟩

end Loop

------------------------------------------------------------
-- Complete Paths
------------------------------------------------------------

/-
  The tags that back references lead to, none of them the
  one of the roots, and the references that JVMTI reports
  for them.
-/
structure RecordedGraph extends BackReferenceGraph where
  root_not_mem : rootTag ∉ tags
  reported :
    ∀ tag ∈ tags, ∀ info ∈ backRefs tag,
      info.kind ≠ .memoryAgentTruncate

section Search

variable {g : RecordedGraph}
variable {start : jlong}
variable {pathsNumber : Int32}
variable {depth : jlong → Nat}
variable {found : Search}

theorem RecordedGraph.ne_rootTag
    (hStart : start ∈ g.tags) :
    start ≠ rootTag := by
  intro hEq
  rw [hEq] at hStart
  exact g.root_not_mem hStart

theorem Explored.untruncated
    (hStart : start ∈ g.tags)
    (hExplored :
      Explored g.backRefs start pathsNumber depth found) :
    Untruncated g.backRefs found.prevTag :=
  fun t hPrev =>
    g.reported t
      (Explored.mem_tags (g := g.toBackReferenceGraph) hStart
        hExplored hPrev)

/- One more path, whatever the limit. -/
theorem Explored.walk
    (hStart : start ∈ g.tags)
    (hExplored :
      Explored g.backRefs start pathsNumber depth found)
    (limit : Nat)
    {done rest cuts : List jlong}
    {r : jlong}
    {s : Paths}
    (hRoots : found.foundRoots = done ++ r :: rest)
    (hEmitted :
      Emitted g.backRefs start found.prevTag depth done cuts
        cuts s)
    (hBase :
      (done = [] ∧ s.tags = []) ∨
        (done ≠ [] ∧ start ∈ s.tags)) :
    ∃ s',
      (∃ n, ∀ fuel, n ≤ fuel →
        walkPath g.backRefs found.prevTag start limit
            (done.length + 1) fuel r
            ⟨s.nodesToPathNum ++ [(r, done.length)],
              insertRootInfos g.backRefs r s.tagToInfos⟩ =
          some s') ∧
      Walked g.backRefs start found.prevTag depth limit done
        cuts r s s' := by
  have hMem : r ∈ found.foundRoots := by
    rw [hRoots]
    simp
  rcases hEmitted.walk hExplored.tree hExplored.start_depth
      (RecordedGraph.ne_rootTag hStart)
      (hExplored.untruncated hStart) limit hBase
      (hEmitted.fresh hExplored.found.nodup
        hExplored.found.sorted hRoots)
      (hExplored.discovered hMem) with
    ⟨s', hWalk, hWalked⟩
  exact ⟨s', ⟨depth r + 1, fun fuel hFuel =>
    hWalk fuel (by omega)⟩, hWalked⟩

/- Between two paths, none of which has been cut off. -/
structure WholePaths
    (backRefs : jlong → List ReferenceInfo)
    (start : jlong)
    (prevNode : jlong → Option jlong)
    (depth : jlong → Nat)
    (done : List jlong)
    (s : Paths) : Prop where
  emitted :
    Emitted backRefs start prevNode depth done [] [] s
  base :
    (done = [] ∧ s.tags = []) ∨
      (done ≠ [] ∧ start ∈ s.tags)

theorem WholePaths.init
    {backRefs : jlong → List ReferenceInfo}
    {prevNode : jlong → Option jlong} :
    WholePaths backRefs start prevNode depth []
      ⟨[], fun _ => none⟩ :=
  ⟨Emitted.init, Or.inl ⟨rfl, rfl⟩⟩

/- One more path, which is whole or meets the limit. -/
theorem Explored.walk_whole
    (hStart : start ∈ g.tags)
    (hExplored :
      Explored g.backRefs start pathsNumber depth found)
    (limit : Nat)
    {done rest : List jlong}
    {r : jlong}
    {s : Paths}
    (hRoots : found.foundRoots = done ++ r :: rest)
    (hWhole :
      WholePaths g.backRefs start found.prevTag depth done
        s) :
    ∃ s',
      (∃ n, ∀ fuel, n ≤ fuel →
        walkPath g.backRefs found.prevTag start limit
            (done.length + 1) fuel r
            ⟨s.nodesToPathNum ++ [(r, done.length)],
              insertRootInfos g.backRefs r s.tagToInfos⟩ =
          some s') ∧
      (WholePaths g.backRefs start found.prevTag depth
          (done ++ [r]) s' ∨
        ∃ tags : List jlong, tags.Nodup ∧
          limit ≤ tags.length ∧
          tags.length ≤ s'.tags.length ∧
          ∀ t ∈ tags,
            ∃ q ∈ done ++ [r],
              OnChain found.prevTag q t) := by
  rcases hExplored.walk hStart limit hRoots hWhole.emitted
      hWhole.base with ⟨s', hWalk, hWalked⟩
  refine ⟨s', hWalk, hWalked.complete_or_full.imp_left ?_⟩
  rintro ⟨hMem, hNext⟩
  exact ⟨hNext, Or.inr ⟨by simp, hMem⟩⟩

/- The tags that are emitted with room for all of them. -/
theorem Explored.emitted
    (hStart : start ∈ g.tags)
    (hExplored :
      Explored g.backRefs start pathsNumber depth found)
    {objectsNumber : Int32}
    {limit : Nat}
    {chain : Finset jlong}
    (hChain :
      ∀ t, t ∈ chain ↔
        ∃ r ∈ found.foundRoots, OnChain found.prevTag r t)
    (hLimit : chain.card < limit)
    (hMore : chain.card < toSize objectsNumber) :
    ∃ s,
      (∃ n, ∀ fuel, n ≤ fuel →
        walkPaths g.backRefs found.prevTag start
          objectsNumber limit fuel found.foundRoots 0
          ⟨[], fun _ => none⟩ = some s) ∧
      Emitted g.backRefs start found.prevTag depth
        found.foundRoots [] [] s := by
  have hFew :
      ∀ done rest (tags : List jlong),
        found.foundRoots = done ++ rest →
          tags.Nodup →
            (∀ t ∈ tags,
              ∃ q ∈ done, OnChain found.prevTag q t) →
              tags.length ≤ chain.card := by
    intro done rest tags hSplit hNodup hOn
    apply length_le_card hChain hNodup
    intro t hT
    rcases hOn t hT with ⟨q, hQ, hOnQ⟩
    refine ⟨q, ?_, hOnQ⟩
    rw [hSplit]
    exact List.mem_append_left rest hQ
  rcases walkPaths_rule objectsNumber found.foundRoots
      (WholePaths g.backRefs start found.prevTag depth)
      (by
        intro done r rest s hRoots hWhole _
        rcases hExplored.walk_whole hStart limit hRoots
            hWhole with
          ⟨s', hWalk, hNext | ⟨tags, hNodup, hFull, _, hOn⟩⟩
        · exact ⟨s', hWalk, hNext⟩
        · have hLe :=
            hFew (done ++ [r]) rest tags
              (by rw [hRoots, List.append_assoc]; rfl)
              hNodup hOn
          omega)
      [] found.foundRoots rfl WholePaths.init with
    ⟨done, rest, s, hSplit, hEnd, ⟨hEmitted, _⟩, hRun⟩
  have hLe :=
    hFew done rest s.tags hSplit hEmitted.nodup
      (fun _ hMem => hEmitted.onChain hMem)
  have hRest : rest = [] := by
    rcases hEnd with hNil | hFull
    · exact hNil
    · rw [s.length_tags] at hLe
      omega
  rw [hRest, List.append_nil] at hSplit
  refine ⟨s, hRun, ?_⟩
  rw [hSplit]
  exact hEmitted

end Search

/-
  The tags on the chains of the roots are emitted, each once
  and with references, and each but the start is linked once,
  from its predecessor: from every root the links lead along
  a shortest path to the start.
-/
structure CompletePaths
    (backRefs : jlong → List ReferenceInfo)
    (start : jlong)
    (prevNode : jlong → Option jlong)
    (roots : List jlong)
    (s : Paths) : Prop where
  nodup : s.tags.Nodup
  mem_iff :
    ∀ t, t ∈ s.tags ↔ ∃ r ∈ roots, OnChain prevNode r t
  shown : ∀ t ∈ s.tags, s.tagToInfos t ≠ none
  rootInfos :
    ∀ r ∈ roots,
      shownRootInfos s.tagToInfos r =
        (backRefs r).filter (fun info => info.tag == rootTag)
  linked :
    ∀ y ∈ s.tags, y ≠ start →
      ∃ p infos, prevNode y = some p ∧
        s.tagToInfos p = some infos ∧
          infos.countP (fun info => info.tag == y) = 1
  linkedFrom :
    ∀ p infos, s.tagToInfos p = some infos →
      ∀ info ∈ infos, info.tag ≠ rootTag →
        prevNode info.tag = some p
  shortest :
    ∀ r ∈ roots, ∃ path : List jlong,
      path.head? = some r ∧ path.getLast? = some start ∧
        path.IsChain (fun a b => Leads s.tagToInfos b a) ∧
          IsDistance (BackReference backRefs) start r
            (path.length - 1)

section Complete

variable {backRefs : jlong → List ReferenceInfo}
variable {start : jlong}
variable {prevNode : jlong → Option jlong}
variable {depth : jlong → Nat}
variable {roots : List jlong}
variable {s : Paths}

theorem countP_tag
    {tagToInfos : Infos}
    {p : jlong}
    (hNone : truncations tagToInfos p = [])
    (y : jlong) :
    ((tagToInfos p).getD []).countP
        (fun info => info.tag == y) =
      linkCount tagToInfos p y := by
  apply List.countP_congr
  intro info hMem
  have hKind : info.kind ≠ .memoryAgentTruncate := by
    have hNot := List.filter_eq_nil_iff.mp hNone info hMem
    simpa using hNot
  simp [hKind]

theorem Emitted.truncations_nil
    (hEmitted :
      Emitted backRefs start prevNode depth roots [] [] s)
    (p : jlong) :
    truncations s.tagToInfos p = [] := by
  rw [hEmitted.truncated p, List.map_nil, ite_self]

/- The one link of an emitted tag. -/
theorem Emitted.linked
    (hTree : PrevTree backRefs start prevNode depth)
    (hStart : start ≠ rootTag)
    (hEmitted :
      Emitted backRefs start prevNode depth roots [] [] s)
    {y : jlong}
    (hMem : y ∈ s.tags)
    (hNe : y ≠ start) :
    ∃ p infos, prevNode y = some p ∧
      s.tagToInfos p = some infos ∧
        infos.countP (fun info => info.tag == y) = 1 := by
  have hPrev := hEmitted.discovered y hMem
  rcases Option.ne_none_iff_exists'.mp hPrev with ⟨p, hP⟩
  have hMemP := hEmitted.closed y hMem List.not_mem_nil p hP
  rcases Option.ne_none_iff_exists'.mp
      ((hEmitted.keys p).mp hMemP) with ⟨infos, hInfos⟩
  refine ⟨p, infos, hP, hInfos, ?_⟩
  have hCount := countP_tag (hEmitted.truncations_nil p) y
  rw [hEmitted.links p y (hTree.ne_rootTag hStart hPrev),
    if_pos ⟨hMem, hNe, List.not_mem_nil, hP⟩, hInfos]
    at hCount
  exact hCount

theorem Emitted.leads
    (hTree : PrevTree backRefs start prevNode depth)
    (hStart : start ≠ rootTag)
    (hEmitted :
      Emitted backRefs start prevNode depth roots [] [] s)
    {y p : jlong}
    (hMem : y ∈ s.tags)
    (hNe : y ≠ start)
    (hPrev : prevNode y = some p) :
    Leads s.tagToInfos p y := by
  rcases hEmitted.linked hTree hStart hMem hNe with
    ⟨q, infos, hQ, hInfos, hCount⟩
  rw [hPrev] at hQ
  rw [← Option.some.inj hQ] at hInfos
  have hPos : 0 < infos.countP (fun info => info.tag == y) := by
    rw [hCount]
    exact Nat.one_pos
  rcases List.countP_pos_iff.mp hPos with
    ⟨info, hInfo, hTag⟩
  exact ⟨hTree.ne_rootTag hStart
    (hEmitted.discovered y hMem), infos, hInfos, info, hInfo,
    by simpa using hTag⟩

/- The links lead from every emitted tag to the start. -/
theorem Emitted.exists_path
    (hTree : PrevTree backRefs start prevNode depth)
    (hZero : depth start = 0)
    (hStart : start ≠ rootTag)
    (hEmitted :
      Emitted backRefs start prevNode depth roots [] [] s)
    {y : jlong}
    (hMem : y ∈ s.tags) :
    ∃ path : List jlong,
      path.head? = some y ∧ path.getLast? = some start ∧
        path.IsChain (fun a b => Leads s.tagToInfos b a) ∧
          path.length = depth y + 1 := by
  generalize hDepth : depth y = d
  induction d using Nat.strongRecOn generalizing y with
  | ind d ih =>
      by_cases hEq : y = start
      · rw [hEq, hZero] at hDepth
        exact ⟨[y], rfl, by rw [hEq]; rfl,
          List.isChain_singleton y, by rw [← hDepth]; rfl⟩
      · rcases Option.ne_none_iff_exists'.mp
            (hEmitted.discovered y hMem) with ⟨p, hP⟩
        have hStep := (hTree.step y p hEq hP).2
        have hMemP :=
          hEmitted.closed y hMem List.not_mem_nil p hP
        rcases ih (depth p) (by omega) hMemP rfl with
          ⟨path, hHead, hLast, hChain, hLength⟩
        refine ⟨y :: path, rfl, ?_, ?_, ?_⟩
        · rw [List.getLast?_cons, hLast]
          rfl
        · refine List.isChain_cons.mpr ⟨?_, hChain⟩
          intro z hZ
          rw [hHead] at hZ
          rw [← Option.some.inj hZ]
          exact hEmitted.leads hTree hStart hMem hEq hP
        · rw [List.length_cons, hLength]
          omega

theorem Emitted.complete
    (hTree : PrevTree backRefs start prevNode depth)
    (hZero : depth start = 0)
    (hStart : start ≠ rootTag)
    (hRoots :
      ∀ r ∈ roots,
        IsDistance (BackReference backRefs) start r (depth r))
    (hEmitted :
      Emitted backRefs start prevNode depth roots [] [] s) :
    CompletePaths backRefs start prevNode roots s := by
  constructor
  · exact hEmitted.nodup
  · intro t
    constructor
    · exact fun hMem => hEmitted.onChain hMem
    · rintro ⟨r, hRoot, hChain⟩
      exact hEmitted.mem_of_onChain hRoot hChain
  · exact fun t hMem => (hEmitted.keys t).mp hMem
  · intro r hRoot
    rw [hEmitted.rootInfos r, if_pos hRoot]
  · exact fun y hMem hNe =>
      hEmitted.linked hTree hStart hMem hNe
  · intro p infos hInfos info hInfo hNe
    have hCount :=
      countP_tag (hEmitted.truncations_nil p) info.tag
    rw [hEmitted.links p info.tag hNe, hInfos,
      Option.getD_some] at hCount
    by_contra hNot
    rw [if_neg (fun h => hNot h.2.2.2),
      List.countP_eq_zero] at hCount
    exact hCount info hInfo (by simp)
  · intro r hRoot
    rcases hEmitted.exists_path hTree hZero hStart
        (hEmitted.roots_mem r hRoot) with
      ⟨path, hHead, hLast, hChain, hLength⟩
    refine ⟨path, hHead, hLast, hChain, ?_⟩
    rw [hLength, Nat.add_sub_cancel]
    exact hRoots r hRoot

end Complete

/- The subtraction of the limit, when it does not wrap. -/
theorem pathsLimit_of_le
    (objectsNumber : Int32)
    (rootsSize : Nat)
    (hLe : (rootsSize : Int) ≤ objectsNumber.toInt) :
    (pathsLimit objectsNumber rootsSize : Int) =
      objectsNumber.toInt - rootsSize := by
  have hUpper := objectsNumber.toInt_lt
  unfold pathsLimit
  omega

/-
  With room for all the tags on the chains of the found
  roots, besides one object for each root, the objects limit
  is not hit, and all paths are complete.
-/
theorem createPaths_complete
    (g : RecordedGraph)
    (start : jlong)
    (pathsNumber objectsNumber : Int32)
    (fuel : Nat)
    (found : Search)
    (chain : Finset jlong)
    (hStart : start ∈ g.tags)
    (hSearch :
      search g.backRefs start pathsNumber fuel = some found)
    (hChain :
      ∀ t, t ∈ chain ↔
        ∃ r ∈ found.foundRoots, OnChain found.prevTag r t)
    (hRoom :
      (chain.card : Int) + found.foundRoots.length <
        objectsNumber.toInt) :
    ∃ s,
      (∃ n, ∀ fuel, n ≤ fuel →
        createPaths g.backRefs found.prevTag start
          objectsNumber fuel found.foundRoots = some s) ∧
      CompletePaths g.backRefs start found.prevTag
        found.foundRoots s := by
  rcases explored_of_search (g := g.toBackReferenceGraph)
      hStart hSearch with ⟨depth, hExplored⟩
  have hLimit :=
    pathsLimit_of_le objectsNumber found.foundRoots.length
      (by omega)
  have hSize :=
    toSize_pos (show 1 ≤ objectsNumber.toInt by omega)
  rcases hExplored.emitted hStart hChain
      (show chain.card < pathsLimit objectsNumber
          found.foundRoots.length by omega)
      (show chain.card < toSize objectsNumber by omega) with
    ⟨s, hRun, hEmitted⟩
  exact ⟨s, hRun,
    hEmitted.complete hExplored.tree hExplored.start_depth
      (RecordedGraph.ne_rootTag hStart)
      (fun r hRoot => (hExplored.found.rootAt r hRoot).2)⟩

------------------------------------------------------------
-- Paths in a Heap
------------------------------------------------------------

section Heaps

variable {O : Type}
variable [DecidableEq O]
variable {h : Heap O}
variable {m : Addresses}
variable {refClasses : List O}
variable {target : O}
variable {start : jlong}
variable {tag : O → jlong}
variable {tags : GcTags}

/- The recorded references of the objects that are apart. -/
noncomputable def recordedGraph
    [Fintype O]
    (hTagged :
      WellTagged h m refClasses target start tag tags)
    (hApart : Apart h refClasses target) :
    RecordedGraph where
  toBackReferenceGraph := backReferenceGraph hTagged hApart
  root_not_mem := by
    intro hMem
    rcases (mem_backReferenceGraph hTagged hApart hMem).2
      with ⟨o, hTag, _⟩
    exact hTagged.ne_root o hTag
  reported := by
    intro t hMem info hInfo hKind
    rcases mem_backReferenceGraph hTagged hApart hMem with
      ⟨hNe, o, rfl, hNotShared, _⟩
    rcases hTagged.denotes hNe hNotShared hInfo with
      ⟨r, hRoot, _, rfl⟩ | ⟨p, _, _, r, hHeld, _, rfl⟩
    · have hIsRoot := h.roots_isRoot r hRoot
      rw [createReferenceInfo_kind] at hKind
      rw [hKind] at hIsRoot
      exact absurd hIsRoot (by decide)
    · have hIsHeld := h.references_isHeld p r hHeld
      rw [createReferenceInfo_kind] at hKind
      rw [hKind] at hIsHeld
      exact absurd hIsHeld (by decide)

/-
  The paths in a heap are those of a graph of recorded
  references: the ones that a search of it and the loop over
  the found roots give.
-/
theorem collectPaths_recorded
    [Fintype O]
    (m : Addresses)
    (hApart : Apart h refClasses target)
    (pathsNumber objectsNumber : Int32)
    (tags : GcTags)
    {reports : List (Report O)}
    (hReports :
      h.FollowReferences none (collectPaths m)
        (initialTags m refClasses target tags).2 reports) :
    ∃ g : RecordedGraph,
      (createTags h m refClasses target tags reports).1 ∈
          g.tags ∧
        ∀ fuel c,
          collectPathsToClosestGcRoots h m refClasses target
              pathsNumber objectsNumber tags reports fuel =
            some c →
            g.backRefs = c.tags.recorded m ∧
              c.start ∈ g.tags ∧
              ∃ found,
                search g.backRefs c.start pathsNumber fuel =
                    some found ∧
                  (found.foundRoots = [] ∧ c.paths = none ∨
                    ∃ s, c.paths = some s ∧
                      createPaths g.backRefs found.prevTag
                        c.start objectsNumber fuel
                        found.foundRoots = some s) := by
  rcases createTags_wellTagged m tags hReports with
    ⟨tags', hUser, hTagged⟩
  have hMem := start_mem_backReferenceGraph hTagged hApart
  refine ⟨recordedGraph hTagged hApart, hMem, ?_⟩
  intro fuel c hCollect
  unfold collectPathsToClosestGcRoots at hCollect
  simp only [hUser, Option.bind_eq_bind, Option.bind_some]
    at hCollect
  rcases Option.bind_eq_some_iff.mp hCollect with
    ⟨found, hSearch, hRest⟩
  rw [searchTags_backRefs hTagged hApart] at hSearch
  by_cases hNone : found.foundRoots = []
  · rw [if_pos hNone] at hRest
    rw [← Option.some.inj hRest]
    exact ⟨rfl, hMem, found, hSearch, Or.inl ⟨hNone, rfl⟩⟩
  · rw [if_neg hNone] at hRest
    rcases Option.bind_eq_some_iff.mp hRest with
      ⟨s, hCreate, hEq⟩
    rw [← Option.some.inj hEq]
    exact ⟨rfl, hMem, found, hSearch,
      Or.inr ⟨s, rfl, hCreate⟩⟩

end Heaps

/- The graph of the sample search. -/
def sampleRecordedGraph : RecordedGraph where
  toBackReferenceGraph := sampleGraph
  root_not_mem := by decide
  reported := by decide

/- The path from 2 to 1, with room for five objects. -/
theorem createPaths_complete_sample :
    ∃ found s fuel,
      search sampleGraph.backRefs 1 2 4 = some found ∧
        createPaths sampleGraph.backRefs found.prevTag 1 5
          fuel found.foundRoots = some s ∧
        CompletePaths sampleGraph.backRefs 1 found.prevTag
          found.foundRoots s := by
  have hSearch :
      ∃ found,
        search sampleGraph.backRefs 1 2 4 = some found ∧
          found.foundRoots = [2] ∧
            found.prevTag 2 = some 1 ∧
              found.prevTag 1 = some 1 :=
    ⟨_, rfl, by decide, by decide, by decide⟩
  rcases hSearch with
    ⟨found, hFound, hRoots, hTwo, hOne⟩
  have hChain :
      ∀ t, t ∈ ({1, 2} : Finset jlong) ↔
        ∃ r ∈ found.foundRoots,
          OnChain found.prevTag r t := by
    intro t
    rw [hRoots]
    simp only [List.mem_singleton, exists_eq_left,
      Finset.mem_insert, Finset.mem_singleton]
    constructor
    · rintro (rfl | rfl)
      · exact Relation.ReflTransGen.single hTwo
      · exact Relation.ReflTransGen.refl
    · intro hOn
      induction hOn with
      | refl => exact Or.inr rfl
      | tail _ hPrev ih =>
          rcases ih with rfl | rfl
          · rw [hOne] at hPrev
            exact Or.inl (Option.some.inj hPrev).symm
          · rw [hTwo] at hPrev
            exact Or.inl (Option.some.inj hPrev).symm
  rcases createPaths_complete sampleRecordedGraph 1 2 5 4
      found {1, 2} (by decide) hFound hChain
      (by rw [hRoots]; decide) with
    ⟨s, ⟨n, hRun⟩, hComplete⟩
  exact ⟨found, s, n, hFound, hRun n (le_refl n), hComplete⟩

end Roots

end MemoryAgent
