import MemoryAgent.Roots.HeapRoots
import MemoryAgent.Roots.ObjectsLimit

/-
  What `findPathsToClosestGcRoots` reports about a heap when
  the objects limit is not met: for each of the closest
  roots a shortest chain of references to the target, and
  no other object.

  Key definitions include:
    * `Roots.ShowsPaths`

  Main results:
    * `Roots.exists_assembled`
    * `Roots.reportsClosestRoots`
-/

------------------------------------------------------------
-- Chains of the Search
------------------------------------------------------------

namespace MemoryAgent

namespace Roots

open ClosestGcRoots BreadthFirst

variable {O : Type}
variable {h : Heap O}
variable {m : Addresses}
variable {refClasses : List O}
variable {target o p : O}
variable {start : jlong}
variable {tag : O → jlong}
variable {tags : GcTags}
variable {number : Int32}
variable {depth : jlong → Nat}
variable {s : Search}

section Chains

/- The tags of a chain belong to objects of a path. -/
theorem Discovered.onChain
    (hTagged :
      WellTagged h m refClasses target start tag tags)
    (hComplete : Complete h m tag tags)
    (hApart : Apart h refClasses target)
    (hExplored :
      Explored (tags.recorded m) start number depth s)
    (hDiscovered :
      Discovered h refClasses target tag s o)
    {t : jlong}
    (hChain : OnChain s.prevTag (tag o) t) :
    ∃ q k, tag q = t ∧
      Discovered h refClasses target tag s q ∧
      Steps h.Refers k o q ∧
        depth (tag o) = depth t + k := by
  induction hChain with
  | refl => exact ⟨o, 0, rfl, hDiscovered, rfl, rfl⟩
  | @tail a b _ hPrev ih =>
      rcases ih with ⟨q, k, rfl, hQ, hSteps, hDepth⟩
      by_cases hEq : q = target
      · -- The start is its own predecessor.
        have hStart := hExplored.tree.start_prev
        rw [← hTagged.target_tag, ← hEq, hPrev] at hStart
        rw [Option.some.inj hStart]
        exact ⟨q, k, rfl, hQ, hSteps, hDepth⟩
      · rcases hQ.next hTagged hComplete hApart hExplored hEq
            hPrev with ⟨r, hTag, hR, hRefers, hNext⟩
        exact ⟨r, k + 1, hTag, hR, ⟨q, hSteps, hRefers⟩,
          by omega⟩

end Chains

------------------------------------------------------------
-- Room for Every Object
------------------------------------------------------------

section Room

variable [Fintype O]

/- With room for every object no path is cut off. -/
theorem exists_completePaths
    (hTagged :
      WellTagged h m refClasses target start tag tags)
    (hApart : Apart h refClasses target)
    (hExplored :
      Explored (tags.recorded m) start number depth s)
    {objectsNumber : Int32}
    (hRoom :
      (2 * Fintype.card O : Int) < objectsNumber.toInt) :
    ∃ paths,
      (∃ n, ∀ fuel, n ≤ fuel →
        createPaths (tags.recorded m) s.prevTag start
          objectsNumber fuel s.foundRoots = some paths) ∧
      CompletePaths (tags.recorded m) start s.prevTag
        s.foundRoots paths := by
  classical
  let g := recordedGraph hTagged hApart
  have hStart : start ∈ g.tags :=
    start_mem_backReferenceGraph hTagged hApart
  have hCard : g.tags.card ≤ Fintype.card O :=
    card_backReferenceGraph_le hTagged hApart
  have hTree := hExplored.tree
  have hMet :
      ∀ t, s.prevTag t ≠ none → t ∈ g.tags :=
    fun t hPrev =>
      hExplored.mem_tags (g := g.toBackReferenceGraph)
        hStart hPrev
  have hOnChain :
      ∀ r t, s.prevTag r ≠ none → OnChain s.prevTag r t →
        s.prevTag t ≠ none := by
    intro r t hPrev hChain
    induction hChain with
    | refl => exact hPrev
    | tail _ hLast _ => exact hTree.total _ _ hLast
  let chain : Finset jlong :=
    g.tags.filter
      (fun t => ∃ r ∈ s.foundRoots, OnChain s.prevTag r t)
  have hChain :
      ∀ t, t ∈ chain ↔
        ∃ r ∈ s.foundRoots, OnChain s.prevTag r t := by
    intro t
    rw [Finset.mem_filter, and_iff_right_iff_imp]
    rintro ⟨r, hMem, hOn⟩
    exact hMet t
      (hOnChain r t (hExplored.discovered hMem) hOn)
  have hChainCard : chain.card ≤ Fintype.card O :=
    (Finset.card_filter_le _ _).trans hCard
  have hLength : s.foundRoots.length ≤ Fintype.card O := by
    rw [← List.toFinset_card_of_nodup hExplored.found.nodup]
    refine (Finset.card_le_card ?_).trans hCard
    intro t hMem
    exact hMet t
      (hExplored.discovered (List.mem_toFinset.mp hMem))
  have hLimit :=
    pathsLimit_of_le objectsNumber s.foundRoots.length
      (by omega)
  have hSize :=
    toSize_pos (show 1 ≤ objectsNumber.toInt by omega)
  rcases Explored.emitted (g := g) hStart hExplored hChain
      (show chain.card < pathsLimit objectsNumber
          s.foundRoots.length by omega)
      (show chain.card < toSize objectsNumber by omega) with
    ⟨paths, hRun, hEmitted⟩
  exact ⟨paths, hRun,
    hEmitted.complete hTree hExplored.start_depth
      (RecordedGraph.ne_rootTag hStart)
      (fun r hRoot => (hExplored.found.rootAt r hRoot).2)⟩

/- The paths of a search that has found roots. -/
theorem exists_assembled
    {objectsNumber : Int32}
    (hTagged :
      WellTagged h m refClasses target start tag tags)
    (hApart : Apart h refClasses target)
    (hExplored :
      Explored (tags.recorded m) start number depth s)
    (hRoom :
      (2 * Fintype.card O : Int) < objectsNumber.toInt) :
    ∃ paths,
      (∃ n, ∀ fuel, n ≤ fuel →
        createPaths (tags.recorded m) s.prevTag start
          objectsNumber fuel s.foundRoots = some paths) ∧
      CompletePaths (tags.recorded m) start s.prevTag
        s.foundRoots paths ∧
      Traced h m target ⟨tag, tags, start, some paths⟩ := by
  have hStartRoot : start ≠ rootTag := by
    rw [← hTagged.target_tag]
    exact hTagged.ne_root target
  have hRoots :
      ∀ t ∈ s.foundRoots,
        hasGcRoot (tags.recorded m) t = true ∧
          s.prevTag t ≠ none :=
    fun t hMem =>
      ⟨(hExplored.found.rootAt t hMem).1,
        hExplored.discovered hMem⟩
  have hMet :
      ∀ t, s.prevTag t ≠ none →
        t ∈ (backReferenceGraph hTagged hApart).tags :=
    fun _ hPrev =>
      Explored.mem_tags
        (start_mem_backReferenceGraph hTagged hApart)
        hExplored hPrev
  rcases exists_completePaths hTagged hApart hExplored hRoom
    with ⟨paths, ⟨n, hRun⟩, hPaths⟩
  rcases createPaths_assembled hExplored.tree hStartRoot
      objectsNumber hRoots with
    ⟨paths', ⟨n', hRun'⟩, hAssembled⟩
  -- Both are what the loop returns.
  have hSame : paths' = paths := by
    have hBoth := hRun (max n n') (Nat.le_max_left _ _)
    rw [hRun' (max n n') (Nat.le_max_right _ _)] at hBoth
    exact Option.some.inj hBoth
  rw [hSame] at hAssembled
  exact ⟨paths, ⟨n, hRun⟩, hPaths,
    hTagged.traced_some hApart hExplored.tree hMet
      hAssembled⟩

end Room

------------------------------------------------------------
-- Reported Paths
------------------------------------------------------------

/-
  For each of the roots the links of the result lead from
  the target to it along a shortest path, and all its root
  references are shown.  Every object is on such a path, or
  the target alone is shown, if there is none.
-/
structure ShowsPaths
    (h : Heap O)
    (target : O)
    (roots : List O)
    (distance : O → Nat)
    (result : Result O) : Prop where
  nodup : result.objects.Nodup
  alone : roots = [] → result.objects = [target]
  path :
    ∀ o ∈ roots, ∃ t i : Nat,
      result.objects[t]? = some target ∧
        result.objects[i]? = some o ∧
          Steps result.LinksTo (distance o) t i
  rootLinks :
    ∀ o ∈ roots, ∀ i : Nat, result.objects[i]? = some o →
      ∀ r ∈ h.roots, r.referee = o →
        ∃ links, result.links[i]? = some links ∧
          ∃ link ∈ links,
            link.prevIndex = -1 ∧ link.Shows r
  onPath :
    roots ≠ [] → ∀ p ∈ result.objects,
      ∃ o ∈ roots, ∃ j k, j + k = distance o ∧
        Steps h.Refers j o p ∧ Steps h.Refers k p target

section Shown

/- Without a root the target alone is asked for. -/
theorem objects_of_none
    (hTagged :
      WellTagged h m refClasses target start tag tags)
    {objects : List O}
    (hAnswered :
      Answered ⟨tag, tags, start, none⟩ objects) :
    objects = [target] := by
  have hTrail : OnTrail h refClasses target tag target :=
    onTrail_target hTagged
  have hPerm : objects.Perm [target] := by
    rw [List.perm_ext_iff_of_nodup hAnswered.tagged.1
      (List.nodup_singleton target)]
    intro p
    rw [hAnswered.mem_iff, List.mem_singleton]
    constructor
    · rintro ⟨_, hMem⟩
      have hTag : tag p = start := List.mem_singleton.mp hMem
      exact (hTrail.inj hTagged
        (hTagged.target_tag.trans hTag.symm)).symm
    · intro hEq
      rw [hEq]
      exact ⟨hTrail.tagged,
        List.mem_singleton.mpr hTagged.target_tag⟩
  exact List.perm_singleton.mp hPerm

/- Without a root nothing leads to the target. -/
theorem showsPaths_of_none
    (hTagged :
      WellTagged h m refClasses target start tag tags)
    {objects : List O}
    (hAnswered :
      Answered ⟨tag, tags, start, none⟩ objects)
    (distance : O → Nat)
    (weak : List Bool) :
    ShowsPaths h target [] distance
      ⟨objects,
        objects.map
          (linksOf m ⟨tag, tags, start, none⟩ objects),
        weak⟩ := by
  refine ⟨hAnswered.tagged.1,
    fun _ => objects_of_none hTagged hAnswered, ?_, ?_,
    fun hSome => absurd rfl hSome⟩
  · intro o hMem
    exact absurd hMem List.not_mem_nil
  · intro o hMem
    exact absurd hMem List.not_mem_nil

/- Found roots have been met by the search. -/
theorem ClosestOnHeap.discovered
    [Fintype O]
    {roots : List O}
    {distance : O → Nat}
    (hComplete : Complete h m tag tags)
    (hApart : Apart h refClasses target)
    (hExplored :
      Explored (tags.recorded m) start number depth s)
    (hClosest :
      ClosestOnHeap h target number tag s roots distance)
    (hMem : o ∈ roots) :
    Discovered h refClasses target tag s o := by
  have hReachable :=
    (hClosest.isDistance o hMem).1.reflTransGen
  have hFound : tag o ∈ s.foundRoots := by
    rw [hClosest.foundRoots_eq]
    exact List.mem_map_of_mem hMem
  exact ⟨.of_alive hComplete hApart
      (hClosest.isGcRoot o hMem).alive hReachable,
    hExplored.discovered hFound⟩

/- What is asked for is what the loop has emitted. -/
theorem mem_objects_iff
    {paths : Paths}
    {objects : List O}
    (hAnswered :
      Answered ⟨tag, tags, start, some paths⟩ objects) :
    o ∈ objects ↔ tag o ≠ 0 ∧ tag o ∈ paths.tags := by
  rw [hAnswered.mem_iff]
  refine and_congr_right (fun hNe => ?_)
  change tag o ∈ List.replicate _ 0 ++ paths.tags ↔ _
  rw [List.mem_append]
  exact or_iff_right
    (fun hZero => hNe (List.eq_of_mem_replicate hZero))

/- A link of the search is shown for the object it names. -/
theorem leads_of_prevTag
    {roots : List jlong}
    {paths : Paths}
    (hTagged :
      WellTagged h m refClasses target start tag tags)
    (hPaths :
      CompletePaths (tags.recorded m) start s.prevTag roots
        paths)
    (hNotTarget : o ≠ target)
    (hMem : tag o ∈ paths.tags)
    (hPrev : s.prevTag (tag o) = some (tag p)) :
    Leads paths.tagToInfos (tag p) (tag o) := by
  have hNotStart : tag o ≠ start := by
    rw [← hTagged.target_tag]
    intro hEq
    exact hNotTarget
      ((onTrail_target hTagged).inj hTagged hEq.symm).symm
  rcases hPaths.linked (tag o) hMem hNotStart with
    ⟨b, infos, hPrevB, hInfos, hCount⟩
  rw [hPrev] at hPrevB
  rw [← Option.some.inj hPrevB] at hInfos
  have hPos :
      0 < infos.countP (fun info => info.tag == tag o) := by
    rw [hCount]
    exact Nat.one_pos
  rcases List.countP_pos_iff.mp hPos with
    ⟨info, hInfo, hTag⟩
  exact ⟨hTagged.ne_root o, infos, hInfos, info, hInfo,
    beq_iff_eq.mp hTag⟩

theorem Discovered.ne_zero_of_onChain
    (hTagged :
      WellTagged h m refClasses target start tag tags)
    (hComplete : Complete h m tag tags)
    (hApart : Apart h refClasses target)
    (hExplored :
      Explored (tags.recorded m) start number depth s)
    (hDiscovered :
      Discovered h refClasses target tag s o)
    (hChain : OnChain s.prevTag (tag o) (tag p)) :
    tag p ≠ 0 := by
  rcases hDiscovered.onChain hTagged hComplete hApart
      hExplored hChain with ⟨q, _, hTag, hQ, _⟩
  rw [← hTag]
  exact hQ.onTrail.tagged

section Emitted

variable {paths : Paths}
variable {objects : List O}
variable {weak : List Bool}

/- The objects of the chains are asked for. -/
theorem mem_objects_of_onChain
    {r : jlong}
    (hPaths :
      CompletePaths (tags.recorded m) start s.prevTag
        s.foundRoots paths)
    (hAnswered :
      Answered ⟨tag, tags, start, some paths⟩ objects)
    (hFound : r ∈ s.foundRoots)
    (hChain : OnChain s.prevTag r (tag o))
    (hNe : tag o ≠ 0) :
    o ∈ objects :=
  (mem_objects_iff hAnswered).mpr
    ⟨hNe, (hPaths.mem_iff _).mpr ⟨r, hFound, hChain⟩⟩

/- The steps of a chain are links of the result. -/
theorem exists_linkSteps
    {r : jlong}
    {n t : Nat}
    (hTagged :
      WellTagged h m refClasses target start tag tags)
    (hPaths :
      CompletePaths (tags.recorded m) start s.prevTag
        s.foundRoots paths)
    (hTraced :
      Traced h m target ⟨tag, tags, start, some paths⟩)
    (hAnswered :
      Answered ⟨tag, tags, start, some paths⟩ objects)
    (hFound : r ∈ s.foundRoots)
    (hNe :
      ∀ p, OnChain s.prevTag r (tag p) → tag p ≠ 0)
    (hT : objects[t]? = some target)
    (hChain : OnChain s.prevTag r (tag o))
    (hSteps :
      Steps
        (fun a b =>
          h.Refers a b ∧ a ≠ target ∧
            s.prevTag (tag a) = some (tag b))
        n o target) :
    ∃ i : Nat, objects[i]? = some o ∧
      Steps
        (Result.LinksTo
          ⟨objects,
            objects.map
              (linksOf m ⟨tag, tags, start, some paths⟩
                objects),
            weak⟩)
        n t i := by
  -- The induction is on the steps that remain.
  induction n generalizing o with
  | zero =>
      have hEq : o = target := hSteps
      rw [hEq]
      exact ⟨t, hT, rfl⟩
  | succ n ih =>
      rcases steps_succ_iff.mp hSteps with
        ⟨b, ⟨_, hNotTarget, hPrev⟩, hRest⟩
      rcases ih (hChain.tail hPrev) hRest with
        ⟨j, hJ, hLinksTo⟩
      rcases List.mem_iff_getElem?.mp
          (mem_objects_of_onChain hPaths hAnswered hFound
            hChain (hNe o hChain)) with ⟨i, hI⟩
      have hLeads :
          Leads paths.tagToInfos (tag b) (tag o) :=
        leads_of_prevTag hTagged hPaths hNotTarget
          ((hPaths.mem_iff _).mpr ⟨r, hFound, hChain⟩)
          hPrev
      exact ⟨i, hI, j, hLinksTo,
        hTraced.linksTo hAnswered hJ hI hLeads⟩

/- The root references of a found root are shown. -/
theorem exists_rootLink
    {r : Reference O}
    {i : Nat}
    (hComplete : Complete h m tag tags)
    (hPaths :
      CompletePaths (tags.recorded m) start s.prevTag
        s.foundRoots paths)
    (hAnswered :
      Answered ⟨tag, tags, start, some paths⟩ objects)
    (hRoot : r ∈ h.roots)
    (hFound : tag r.referee ∈ s.foundRoots)
    (hI : objects[i]? = some r.referee) :
    ∃ links,
      (objects.map
        (linksOf m ⟨tag, tags, start, some paths⟩
          objects))[i]? = some links ∧
        ∃ link ∈ links, link.prevIndex = -1 ∧
          link.Shows r := by
  have hReport :
      (⟨none, r⟩ : Report O) ∈ h.rootReports :=
    (h.mem_rootReports_iff _).mpr ⟨rfl, hRoot⟩
  have hInfo :
      createReferenceInfo rootTag r.kind r.info ∈
        tags.recorded m (tag r.referee) :=
    (hComplete.roots _ hReport).info tags rfl
  have hShown :
      createReferenceInfo rootTag r.kind r.info ∈
        shownRootInfos paths.tagToInfos (tag r.referee) := by
    rw [hPaths.rootInfos _ hFound]
    exact List.mem_filter.mpr ⟨hInfo, by simp⟩
  have hTag :=
    ((mem_objects_iff hAnswered).mp
      (List.mem_of_getElem? hI)).2
  rcases Option.ne_none_iff_exists'.mp
      (hPaths.shown _ hTag) with ⟨infos, hInfos⟩
  have hIn := (List.mem_filter.mp hShown).1
  rw [hInfos, Option.getD_some] at hIn
  refine ⟨linksOf m ⟨tag, tags, start, some paths⟩ objects
      r.referee, ?_, ⟨-1, r.kind,
      (createReferenceInfo rootTag r.kind r.info).detail⟩,
      ?_, rfl, rfl, rfl⟩
  · rw [List.getElem?_map, hI]
    rfl
  · rw [mem_linksOf_iff]
    refine ⟨infos, hInfos, _, hIn, Or.inl ⟨?_, ?_⟩⟩
    · exact createReferenceInfo_tag _ _ _
    · rw [createReferenceInfo_kind]

/- The result for the paths that the loop emits. -/
theorem showsPaths_of_complete
    [Fintype O]
    {roots : List O}
    (hTagged :
      WellTagged h m refClasses target start tag tags)
    (hComplete : Complete h m tag tags)
    (hApart : Apart h refClasses target)
    (hExplored :
      Explored (tags.recorded m) start number depth s)
    (hClosest :
      ClosestOnHeap h target number tag s roots
        (fun o => depth (tag o)))
    (hPaths :
      CompletePaths (tags.recorded m) start s.prevTag
        s.foundRoots paths)
    (hTraced :
      Traced h m target ⟨tag, tags, start, some paths⟩)
    (hAnswered :
      Answered ⟨tag, tags, start, some paths⟩ objects)
    (hNonempty : roots ≠ []) :
    ShowsPaths h target roots (fun o => depth (tag o))
      ⟨objects,
        objects.map
          (linksOf m ⟨tag, tags, start, some paths⟩ objects),
        weak⟩ := by
  have hRootTag :
      ∀ o ∈ roots, tag o ∈ s.foundRoots := by
    intro o hMem
    rw [hClosest.foundRoots_eq]
    exact List.mem_map_of_mem hMem
  refine ⟨hAnswered.tagged.1,
    fun hNone => absurd hNone hNonempty, ?_, ?_, ?_⟩
  · intro o hMem
    have hDiscovered :=
      hClosest.discovered hComplete hApart hExplored hMem
    have hNe :
        ∀ p, OnChain s.prevTag (tag o) (tag p) →
          tag p ≠ 0 :=
      fun _ hChain =>
        hDiscovered.ne_zero_of_onChain hTagged hComplete
          hApart hExplored hChain
    have hToStart :=
      hExplored.tree.onChain_start hDiscovered.prevTag
    rw [← hTagged.target_tag] at hToStart
    rcases List.mem_iff_getElem?.mp
        (mem_objects_of_onChain hPaths hAnswered
          (hRootTag o hMem) hToStart (hNe _ hToStart)) with
      ⟨t, hT⟩
    rcases exists_linkSteps hTagged hPaths hTraced hAnswered
        (hRootTag o hMem) hNe hT .refl
        (hClosest.chain o hMem) with ⟨i, hI, hSteps⟩
    exact ⟨t, i, hT, hI, hSteps⟩
  · rintro o hMem i hI r hRoot rfl
    exact exists_rootLink hComplete hPaths hAnswered hRoot
      (hRootTag _ hMem) hI
  · intro _ p hP
    rcases (hPaths.mem_iff _).mp
        ((mem_objects_iff hAnswered).mp hP).2 with
      ⟨t, hFound, hChain⟩
    rw [hClosest.foundRoots_eq] at hFound
    rcases List.mem_map.mp hFound with ⟨o, hMem, rfl⟩
    have hDiscovered :=
      hClosest.discovered hComplete hApart hExplored hMem
    rcases hDiscovered.onChain hTagged hComplete hApart
        hExplored hChain with
      ⟨q, k, hTag, hQ, hSteps, hDepth⟩
    rw [hQ.onTrail.inj hTagged hTag] at hSteps hQ
    refine ⟨o, hMem, k, depth (tag p), ?_, hSteps, ?_⟩
    · omega
    · exact (hQ.steps hTagged hComplete hApart
        hExplored).mono (fun _ _ hStep => hStep.1)

end Emitted

end Shown

------------------------------------------------------------
-- The Action
------------------------------------------------------------

section Action

variable [Fintype O]
variable [DecidableEq O]
variable {pathsNumber objectsNumber : Int32}
variable {reports : List (Report O)}

/- The result is the one for the collected paths. -/
theorem exists_results
    {c : Outcome O}
    {n : Nat}
    {roots : List O}
    {distance : O → Nat}
    (hCollect :
      ∀ fuel, n ≤ fuel →
        collectPathsToClosestGcRoots h m refClasses target
          pathsNumber objectsNumber tags reports fuel =
            some c)
    (hTraced : Traced h m target c)
    (hShows :
      ∀ objects, Answered c objects → ∀ weak,
        ShowsPaths h target roots distance
          ⟨objects, objects.map (linksOf m c objects),
            weak⟩) :
    (∃ objects, Answered c objects) ∧
      ∀ objects, Answered c objects →
        ∃ result,
          (∀ fuel, n ≤ fuel →
            executeOperation h m refClasses target
              pathsNumber objectsNumber tags reports objects
              fuel = some result) ∧
          ShowsPaths h target roots distance result := by
  refine ⟨exists_answered c, ?_⟩
  intro objects hAnswered
  rcases hTraced.createResultObject hAnswered with
    ⟨weak, hCreate⟩
  refine ⟨_, ?_, hShows objects hAnswered weak⟩
  intro fuel hFuel
  simp [executeOperation, hCollect fuel hFuel, hCreate]

/- The closest roots, and what is reported about them. -/
theorem exists_report
    {tags : GcTags}
    (hReports :
      h.FollowReferences none (collectPaths m)
        (initialTags m refClasses target tags).2 reports)
    (hApart : Apart h refClasses target)
    (hNumber : 1 ≤ pathsNumber.toInt)
    (hRoom :
      (2 * Fintype.card O : Int) < objectsNumber.toInt) :
    ∃ c n roots distance,
      (∀ fuel, n ≤ fuel →
        collectPathsToClosestGcRoots h m refClasses target
          pathsNumber objectsNumber tags reports fuel =
            some c) ∧
      ClosestRoots h target pathsNumber roots distance ∧
      (∃ objects, Answered c objects) ∧
      ∀ objects, Answered c objects →
        ∃ result,
          (∀ fuel, n ≤ fuel →
            executeOperation h m refClasses target
              pathsNumber objectsNumber tags reports objects
              fuel = some result) ∧
          ShowsPaths h target roots distance result := by
  rcases createTags_wellTagged m tags hReports with
    ⟨tags', hUser, hTagged⟩
  have hComplete := complete_createTags tags hReports hUser
  rcases exists_closestOnHeap hTagged hComplete hApart
      hNumber with
    ⟨s, depth, roots, hSearch, hExplored, hClosest⟩
  let created :=
    createTags h m refClasses target tags reports
  by_cases hNone : roots = []
  · have hNoRoot : s.foundRoots = [] := by
      rw [hClosest.foundRoots_eq, hNone]
      rfl
    have hCollect :
        ∀ fuel, Fintype.card O + 1 ≤ fuel →
          collectPathsToClosestGcRoots h m refClasses target
            pathsNumber objectsNumber tags reports fuel =
              some ⟨created.2.tag, tags', created.1,
                none⟩ := by
      intro fuel hFuel
      simp [collectPathsToClosestGcRoots, hUser,
        hSearch fuel hFuel, hNoRoot, created]
    refine ⟨_, _, roots, _, hCollect,
      hClosest.toClosestRoots,
      exists_results hCollect hTagged.traced_none
        ?_⟩
    intro objects hAnswered weak
    rw [hNone]
    exact showsPaths_of_none hTagged hAnswered _ weak
  · have hSomeRoot : s.foundRoots ≠ [] := by
      rw [hClosest.foundRoots_eq]
      exact fun hNil => hNone (List.map_eq_nil_iff.mp hNil)
    rcases exists_assembled hTagged hApart hExplored hRoom
      with ⟨paths, ⟨k, hRun⟩, hPaths, hTraced⟩
    have hCollect :
        ∀ fuel, max (Fintype.card O + 1) k ≤ fuel →
          collectPathsToClosestGcRoots h m refClasses target
            pathsNumber objectsNumber tags reports fuel =
              some ⟨created.2.tag, tags', created.1,
                some paths⟩ := by
      intro fuel hFuel
      simp [collectPathsToClosestGcRoots, hUser,
        hSearch fuel ((Nat.le_max_left _ _).trans hFuel),
        hSomeRoot, created,
        hRun fuel ((Nat.le_max_right _ _).trans hFuel)]
    exact ⟨_, _, roots, _, hCollect,
      hClosest.toClosestRoots,
      exists_results hCollect hTraced
        (fun _ hAnswered _ =>
          showsPaths_of_complete hTagged hComplete hApart
            hExplored hClosest hPaths hTraced hAnswered
            hNone)⟩

end Action

/-
  After an uninterrupted traversal, and with room for all
  objects, the action reports for each of the closest roots
  of the heap a shortest path to the target, and nothing
  else, provided that no class object that shares its tag
  leads to the target.
-/
theorem reportsClosestRoots
    [Fintype O]
    [DecidableEq O]
    (h : Heap O)
    (m : Addresses)
    (refClasses : List O)
    (target : O)
    (pathsNumber objectsNumber : Int32)
    (tags : GcTags)
    (reports : List (Report O))
    (hReports :
      h.FollowReferences none (collectPaths m)
        (initialTags m refClasses target tags).2 reports)
    (hApart : Apart h refClasses target)
    (hNumber : 1 ≤ pathsNumber.toInt)
    (hRoom :
      (2 * Fintype.card O : Int) < objectsNumber.toInt) :
    ∃ c n roots distance,
      (∀ fuel, n ≤ fuel →
        collectPathsToClosestGcRoots h m refClasses target
          pathsNumber objectsNumber tags reports fuel =
            some c) ∧
      ClosestRoots h target pathsNumber roots distance ∧
      (∃ objects, Answered c objects) ∧
      ∀ objects, Answered c objects →
        ∃ result,
          (∀ fuel, n ≤ fuel →
            executeOperation h m refClasses target
              pathsNumber objectsNumber tags reports objects
              fuel = some result) ∧
          ShowsPaths h target roots distance result := by
  exact exists_report hReports hApart hNumber hRoom

/- A thread, object 0 and object 1. -/
theorem reportsClosestRoots_thread :
    ∃ c n roots distance,
      (∀ fuel, n ≤ fuel →
        collectPathsToClosestGcRoots twoReferenceClasses
          ascendingAddresses [2] 1 10 9 noTags
          twoReferenceClassesReports fuel = some c) ∧
      ClosestRoots twoReferenceClasses 1 10 roots
        distance ∧
      ∃ objects, Answered c objects := by
  rcases reportsClosestRoots twoReferenceClasses
      ascendingAddresses [2] 1 10 9 noTags
      twoReferenceClassesReports (by decide)
      apart_twoReferenceClasses (by decide) (by decide) with
    ⟨c, n, roots, distance, hCollect, hClosest, hAnswered,
      _⟩
  exact ⟨c, n, roots, distance, hCollect, hClosest,
    hAnswered⟩

end Roots

end MemoryAgent
