import MemoryAgent.Roots.LeakCounter
import MemoryAgent.Roots.ReachedTags
import MemoryAgent.Roots.StaleReferences

/-
  Exactly when the reported links are references of the heap:
  when the paths do not reach the tag that several class
  objects share, before the limits for the number of paths
  and for the number of objects.

  Key definitions include:
    * `Roots.memoryGraph`
    * `Roots.MeetsShared`

  Main results:
    * `Roots.Built.traced`
    * `Roots.real_iff`
    * `Roots.links_real`
-/

------------------------------------------------------------
-- The Tags in Memory
------------------------------------------------------------

namespace MemoryAgent

namespace Roots

open RecordStore ClosestGcRoots

section Memory

variable {m : Addresses}
variable {tags : GcTags}
variable {t : jlong}
variable {info : ReferenceInfo}

/- The tag is in memory if something is recorded for it. -/
theorem live_of_recorded
    (hMem : info ∈ tags.recorded m t) :
    t ≠ 0 ∧
      ((t = m.weakSoftReferenceTag ∧
          info ∈ tags.weakSoftReferenceTag.backRefs) ∨
        ∃ r, tags.store.get t = some r ∧
          info ∈ r.backRefs) := by
  rw [GcTags.recorded_eq] at hMem
  unfold GcTags.pointerToGcTag at hMem
  by_cases hZero : t = 0
  · rw [if_pos hZero] at hMem
    exact absurd hMem List.not_mem_nil
  · rw [if_neg hZero] at hMem
    refine ⟨hZero, ?_⟩
    by_cases hShared : t = m.weakSoftReferenceTag
    · rw [if_pos hShared] at hMem
      exact Or.inl ⟨hShared, hMem⟩
    · rw [if_neg hShared] at hMem
      cases hGet : tags.store.get t with
      | none =>
          rw [hGet] at hMem
          exact absurd hMem List.not_mem_nil
      | some r =>
          rw [hGet] at hMem
          exact Or.inr ⟨r, rfl, hMem⟩

/- All back references in memory. -/
def GcTags.allBackRefs (tags : GcTags) : List ReferenceInfo :=
  tags.weakSoftReferenceTag.backRefs ++
    tags.store.cells.flatMap (fun c => c.record.backRefs)

theorem mem_allBackRefs
    (hMem : info ∈ tags.recorded m t) :
    info ∈ tags.allBackRefs := by
  rcases (live_of_recorded hMem).2 with
    ⟨_, hStatic⟩ | ⟨r, hGet, hInfo⟩
  · exact List.mem_append_left _ hStatic
  · rcases Option.map_eq_some_iff.mp hGet with
      ⟨c, hFind, hRecord⟩
    refine List.mem_append_right _ (List.mem_flatMap.mpr
      ⟨c, List.mem_of_find?_eq_some hFind, ?_⟩)
    rw [hRecord]
    exact hInfo

/- The graph of whatever is recorded, deleted or not. -/
def memoryGraph
    (m : Addresses)
    (tags : GcTags)
    (start : jlong) : BackReferenceGraph where
  tags :=
    insert start
      (tags.allBackRefs.map ReferenceInfo.tag).toFinset
  backRefs := tags.recorded m
  closed := by
    rintro _ _ parentTag ⟨_, info, hInfo, hTag⟩
    refine Finset.mem_insert_of_mem (List.mem_toFinset.mpr ?_)
    exact List.mem_map.mpr
      ⟨info, mem_allBackRefs hInfo, hTag⟩

theorem start_mem_memoryGraph
    (m : Addresses)
    (tags : GcTags)
    (start : jlong) :
    start ∈ (memoryGraph m tags start).tags :=
  Finset.mem_insert_self _ _

/- A search that returns is one among recorded references. -/
theorem search_recorded
    {start : jlong}
    {number : Int32}
    {fuel : Nat}
    {found : Search}
    (hSearch :
      searchTags (tags.backRefs m) start number fuel =
        some found) :
    search (tags.recorded m) start number fuel =
      some found := by
  apply search_of_searchTags ?_ hSearch
  intro tag infos hInfos
  unfold GcTags.recorded
  rw [hInfos]

/- Without deleted tags every search returns. -/
theorem searchTags_recorded
    {start : jlong}
    (hRead :
      ∀ a, Followed m tags start a → tags.backRefs m a ≠ none)
    (number : Int32)
    (fuel : Nat) :
    searchTags (tags.backRefs m) start number fuel =
      search (tags.recorded m) start number fuel := by
  have hRefs :
      ∀ tag, Followed m tags start tag →
        tags.backRefs m tag = some (tags.recorded m tag) := by
    intro tag hFollowed
    rcases Option.ne_none_iff_exists'.mp
        (hRead tag hFollowed) with ⟨infos, hInfos⟩
    unfold GcTags.recorded
    rw [hInfos]
  apply searchLoop_eq hRefs
  · exact fun tag hFollowed parentTag hBack =>
      hFollowed.tail hBack
  · intro tag hMem
    rw [List.mem_singleton.mp hMem]
    exact Relation.ReflTransGen.refl

end Memory

------------------------------------------------------------
-- Paths Without the Shared Tag
------------------------------------------------------------

section Paths

variable {O : Type}
variable {h : Heap O}
variable {m : Addresses}
variable {refClasses : List O}
variable {target : O}
variable {start : jlong}
variable {tag : O → jlong}
variable {tags : GcTags}
variable {pathsNumber objectsNumber : Int32}
variable {depth : jlong → Nat}
variable {found : Search}
variable {c : Outcome O}

/- Something is recorded for the tags of the chains. -/
theorem Explored.live_of_onChain
    (hExplored :
      Explored (tags.recorded m) start pathsNumber depth
        found)
    {r t : jlong}
    (hRoot : r ∈ found.foundRoots)
    (hChain : OnChain found.prevTag r t)
    (hNe : t ≠ start) :
    ∃ info, info ∈ tags.recorded m t := by
  rcases Relation.ReflTransGen.cases_tail hChain with
    hEq | ⟨b, _, hPrev⟩
  · rw [hEq]
    rcases List.any_eq_true.mp
        (hExplored.found.rootAt r hRoot).1 with
      ⟨info, hInfo, _⟩
    exact ⟨info, hInfo⟩
  · have hNeB : b ≠ start := by
      intro hEq
      rw [hEq, hExplored.tree.start_prev] at hPrev
      exact hNe (Option.some.inj hPrev).symm
    rcases (hExplored.tree.step b t hNeB hPrev).1 with
      ⟨_, info, hInfo, _⟩
    exact ⟨info, hInfo⟩

/- The tags of the paths, but the start, are reached. -/
theorem Explored.emits_iff
    (hExplored :
      Explored (tags.recorded m) start pathsNumber depth
        found)
    {paths : Paths}
    (hPaths :
      ∃ n, ∀ fuel, n ≤ fuel →
        createPaths (tags.recorded m) found.prevTag start
          objectsNumber fuel found.foundRoots = some paths)
    {t : jlong}
    (hNe : t ≠ start) :
    t ∈ paths.tags ↔
      Emits found.prevTag found.foundRoots objectsNumber
        t := by
  have hFew : found.foundRoots.length < 2 ^ 64 := by
    have hLe := hExplored.few
    unfold toSize at hLe
    omega
  rcases createPaths_emits hExplored.tree
      hExplored.start_depth objectsNumber
      hExplored.found.nodup hExplored.found.sorted
      (fun q hMem => hExplored.discovered hMem) hFew with
    ⟨paths', ⟨n', hRun'⟩, hEmits⟩
  rcases hPaths with ⟨n, hRun⟩
  have hBoth := hRun (max n n') (Nat.le_max_left _ _)
  rw [hRun' (max n n') (Nat.le_max_right _ _)] at hBoth
  rw [← Option.some.inj hBoth]
  exact hEmits t hNe

/- Paths that do not reach the shared tag are traced. -/
theorem Built.traced
    (hTagged :
      WellTagged h m refClasses target start tag tags)
    (hCarried : Carried m tag tags)
    (hExplored :
      Explored (tags.recorded m) start pathsNumber depth
        found)
    (hBuilt :
      Built m tag tags start objectsNumber found c)
    (hNot :
      ¬ Emits found.prevTag found.foundRoots objectsNumber
        m.weakSoftReferenceTag) :
    Traced h m target c := by
  cases hBuilt with
  | alone _ => exact hTagged.traced_none
  | @paths paths hSome hPaths hAssembled =>
      apply hTagged.traced_of_owned hExplored.tree hAssembled
      intro t hMem
      by_cases hEq : t = start
      · rw [hEq]
        exact ⟨hTagged.start_ne_zero,
          hTagged.start_ne_shared, target,
          hTagged.target_tag⟩
      · have hNeShared : t ≠ m.weakSoftReferenceTag := by
          intro hShared
          apply hNot
          rw [← hShared]
          exact (hExplored.emits_iff hPaths hEq).mp hMem
        rcases (hExplored.emits_iff hPaths hEq).mp hMem
          with ⟨i, _, _, _, r, hGet, hChain, _⟩
        rcases hExplored.live_of_onChain
            (List.mem_of_getElem? hGet) hChain hEq with
          ⟨info, hInfo⟩
        rcases live_of_recorded hInfo with
          ⟨hZero, ⟨hShared, _⟩ | ⟨record, hLive, _⟩⟩
        · exact absurd hShared hNeShared
        · rcases hCarried t (by rw [hLive]; simp) with
            ⟨_, _, o, hO⟩
          exact ⟨hZero, hNeShared, o, hO⟩

/- Paths that reach the shared tag ask for all its objects. -/
theorem Built.requested
    (hTagged :
      WellTagged h m refClasses target start tag tags)
    (hExplored :
      Explored (tags.recorded m) start pathsNumber depth
        found)
    (hBuilt :
      Built m tag tags start objectsNumber found c)
    (hEmits :
      Emits found.prevTag found.foundRoots objectsNumber
        m.weakSoftReferenceTag) :
    m.weakSoftReferenceTag ∈ c.requested := by
  cases hBuilt with
  | alone hNone =>
      rcases hEmits with ⟨i, _, _, _, r, hGet, _⟩
      rw [hNone] at hGet
      cases hGet
  | @paths paths _ hPaths _ =>
      apply List.mem_append_right
      exact (hExplored.emits_iff hPaths
        hTagged.start_ne_shared.symm).mpr hEmits

end Paths

------------------------------------------------------------
-- Real Results
------------------------------------------------------------

section Results

variable {O : Type}
variable [DecidableEq O]
variable {h : Heap O}
variable {m : Addresses}
variable {refClasses : List O}
variable {target : O}
variable {pathsNumber objectsNumber : Int32}
variable {tags : GcTags}
variable {reports : List (Report O)}
variable {c : Outcome O}

/-
  With the back references in the order of the reports, the
  closest roots have paths that reach the shared tag before
  there are too many objects.
-/
def MeetsShared
    (h : Heap O)
    (m : Addresses)
    (refClasses : List O)
    (target : O)
    (pathsNumber objectsNumber : Int32)
    (tags : GcTags)
    (reports : List (Report O)) : Prop :=
  let gathered :=
    createTags h m refClasses target tags reports
  ∃ tags' found fuel,
    gathered.2.user = some tags' ∧
      search (tags'.recorded m) gathered.1 pathsNumber fuel =
          some found ∧
        Emits found.prevTag found.foundRoots objectsNumber
          m.weakSoftReferenceTag

/- What the agent has found when it asks for the objects. -/
theorem exists_built_of_collect
    {fuel : Nat}
    (hReports :
      h.FollowReferences none (collectPaths m)
        (initialTags m refClasses target tags).2 reports)
    (hCollect :
      collectPathsToClosestGcRoots h m refClasses target
        pathsNumber objectsNumber tags reports fuel =
          some c) :
    let gathered :=
      createTags h m refClasses target tags reports
    ∃ tags' depth found,
      gathered.2.user = some tags' ∧
      WellTagged h m refClasses target gathered.1
        gathered.2.tag tags' ∧
      search (tags'.recorded m) gathered.1 pathsNumber fuel =
        some found ∧
      Explored (tags'.recorded m) gathered.1 pathsNumber
        depth found ∧
      Built m gathered.2.tag tags' gathered.1 objectsNumber
        found c := by
  rcases createTags_wellTagged m tags hReports with
    ⟨tags', hUser, hTagged⟩
  rcases collectPathsToClosestGcRoots_inv hCollect with
    ⟨tags'', found, hUser', hFound, hEnd⟩
  have hSame : tags'' = tags' :=
    Option.some.inj (hUser'.symm.trans hUser)
  rw [hSame] at hFound hEnd
  have hSearch := search_recorded hFound
  rcases explored_of_search
      (start_mem_memoryGraph m tags' _) hSearch with
    ⟨depth, hExplored⟩
  refine ⟨tags', depth, found, hUser, hTagged, hSearch,
    hExplored, ?_⟩
  rcases Explored.exists_built hTagged hExplored
      objectsNumber with ⟨c', hBuilt⟩
  rcases hEnd with
    ⟨hNone, hEq⟩ | ⟨hSome, paths, hPaths, hEq⟩
  · rw [hEq]
    exact Built.alone hNone
  · cases hBuilt with
    | alone hNone => exact absurd hNone hSome
    | @paths paths' _ hRun hAssembled =>
        have hThese : paths' = paths := by
          rcases hRun with ⟨n, hRun⟩
          have hMore :=
            createPaths_of_le (Nat.le_max_left fuel n) hPaths
          rw [hRun _ (Nat.le_max_right fuel n)] at hMore
          exact Option.some.inj hMore
        rw [hThese] at hRun hAssembled
        rw [hEq]
        exact Built.paths hSome hRun hAssembled

/-
  If two class objects share the tag, a result is real if and
  only if the paths do not meet it.
-/
theorem real_iff
    (hFree : ∀ a, tags.store.get a = none)
    (hBalance : tags.rootsTagBalance = 0)
    (hReports :
      h.FollowReferences none (collectPaths m)
        (initialTags m refClasses target tags).2 reports)
    {a b : O}
    (hNe : a ≠ b)
    (hCarrierA : Carrier refClasses target a)
    (hCarrierB : Carrier refClasses target b)
    {fuel : Nat}
    (hCollect :
      collectPathsToClosestGcRoots h m refClasses target
        pathsNumber objectsNumber tags reports fuel = some c)
    {objects : List O}
    (hAnswered : Answered c objects) :
    (∃ result,
      executeOperation h m refClasses target pathsNumber
          objectsNumber tags reports objects fuel =
            some result ∧
        Real h target result) ↔
      ¬ MeetsShared h m refClasses target pathsNumber
        objectsNumber tags reports := by
  rcases exists_built_of_collect hReports hCollect with
    ⟨tags', depth, found, hUser, hTagged, hSearch, hExplored,
      hBuilt⟩
  rcases tallied_createTags (tallied_of_free hFree hBalance)
      hReports.1.1 with ⟨tags'', hUser', hTallied⟩
  have hSame : tags'' = tags' :=
    Option.some.inj (hUser'.symm.trans hUser)
  rw [hSame] at hTallied
  constructor
  · rintro ⟨result, hResult, hReal⟩
      ⟨tags₁, found₁, fuel₁, hUser₁, hSearch₁, hEmits⟩
    have hTags : tags₁ = tags' :=
      Option.some.inj (hUser₁.symm.trans hUser)
    rw [hTags] at hSearch₁
    have hFound : found₁ = found := by
      have hMore :=
        searchLoop_add_fuel fuel fuel₁ hSearch
      have hMore₁ :=
        searchLoop_add_fuel fuel₁ fuel hSearch₁
      rw [Nat.add_comm, hMore] at hMore₁
      exact (Option.some.inj hMore₁).symm
    rw [hFound] at hEmits
    have hRequested := hBuilt.requested hTagged hExplored hEmits
    have hListed :
        ∀ o, Carrier refClasses target o → o ∈ objects := by
      intro o hCarrier
      rw [hAnswered.mem_iff o,
        carrier_tag hReports hCollect o hCarrier]
      exact ⟨m.ne_zero, hRequested⟩
    exact not_real_of_two hReports hCollect hResult
      (hListed a hCarrierA) (hListed b hCarrierB) hNe
      hCarrierA hCarrierB hReal
  · intro hNot
    have hTraced :=
      hBuilt.traced hTagged hTallied.carried hExplored
        (fun hEmits => hNot
          ⟨tags', found, fuel, hUser, hSearch, hEmits⟩)
    rcases hTraced.executes hAnswered with
      ⟨result, hReal, hExecutes⟩
    exact ⟨result, hExecutes fuel hCollect, hReal⟩

/- The agent gets an answer if it reads no deleted tag. -/
theorem NoStale.exists_answered
    [Fintype O]
    (hStale : NoStale m tags)
    (hFree : ∀ a, tags.store.get a = none)
    (hReports :
      h.FollowReferences none (collectPaths m)
        (initialTags m refClasses target tags).2 reports)
    (pathsNumber objectsNumber : Int32) :
    ∃ c n,
      (∀ fuel, n ≤ fuel →
        collectPathsToClosestGcRoots h m refClasses target
          pathsNumber objectsNumber tags reports fuel =
            some c) ∧
      ∃ objects, Answered c objects := by
  rcases createTags_wellTagged m tags hReports with
    ⟨tags', hUser, hTagged⟩
  rcases hStale.readsNoDeleted hFree h refClasses target
      reports hReports.1.1 with ⟨tags'', hUser', hRead⟩
  have hSame : tags'' = tags' :=
    Option.some.inj (hUser'.symm.trans hUser)
  rw [hSame] at hRead
  rcases exists_explored
      (start_mem_memoryGraph m tags' _) pathsNumber with
    ⟨found, depth, ⟨n, hSearch⟩, hExplored⟩
  rcases Explored.exists_built hTagged hExplored
      objectsNumber with ⟨c, hBuilt⟩
  rcases hBuilt.collect hUser (fun fuel hFuel =>
      (searchTags_recorded hRead pathsNumber fuel).trans
        (hSearch fuel hFuel)) with ⟨k, hCollect⟩
  exact ⟨c, k, hCollect, Roots.exists_answered c⟩

end Results

/-
  A run ends, and every link of its result is real, if no
  class object that shares its tag is alive and leads to the
  target.  A result that lists two of these class objects is
  not real.  If there are two of them, then a result of a
  search, which finds the memory as other searches leave it,
  is real if and only if the paths do not meet their tag.
-/
theorem links_real
    {O : Type}
    [DecidableEq O]
    [Fintype O]
    (h : Heap O)
    (m : Addresses)
    (refClasses : List O)
    (target : O)
    (pathsNumber objectsNumber : Int32)
    (tags : GcTags) :
    (∃ reports,
      h.FollowReferences none (collectPaths m)
        (initialTags m refClasses target tags).2 reports) ∧
      ∀ reports,
        h.FollowReferences none (collectPaths m)
            (initialTags m refClasses target tags).2
            reports →
          (Apart h refClasses target →
            ∃ c n,
              (∀ fuel, n ≤ fuel →
                collectPathsToClosestGcRoots h m refClasses
                  target pathsNumber objectsNumber tags
                  reports fuel = some c) ∧
              (∃ objects, Answered c objects) ∧
              ∀ objects, Answered c objects →
                ∃ result,
                  (∀ fuel, n ≤ fuel →
                    executeOperation h m refClasses target
                      pathsNumber objectsNumber tags reports
                      objects fuel = some result) ∧
                  Real h target result) ∧
          (∀ c objects result fuel,
            collectPathsToClosestGcRoots h m refClasses
                target pathsNumber objectsNumber tags reports
                fuel = some c →
              executeOperation h m refClasses target
                  pathsNumber objectsNumber tags reports
                  objects fuel = some result →
                (∃ a ∈ objects, ∃ b ∈ objects, a ≠ b ∧
                  Carrier refClasses target a ∧
                  Carrier refClasses target b) →
                ¬ Real h target result) ∧
          ((∀ a, tags.store.get a = none) →
            tags.rootsTagBalance = 0 →
              (NoStale m tags →
                ∃ c n,
                  (∀ fuel, n ≤ fuel →
                    collectPathsToClosestGcRoots h m
                      refClasses target pathsNumber
                      objectsNumber tags reports fuel =
                        some c) ∧
                  ∃ objects, Answered c objects) ∧
              ∀ a b, a ≠ b →
                Carrier refClasses target a →
                  Carrier refClasses target b →
                    ∀ c objects fuel,
                      collectPathsToClosestGcRoots h m
                          refClasses target pathsNumber
                          objectsNumber tags reports fuel =
                            some c →
                        Answered c objects →
                          ((∃ result,
                            executeOperation h m refClasses
                                target pathsNumber
                                objectsNumber tags reports
                                objects fuel =
                                  some result ∧
                              Real h target result) ↔
                            ¬ MeetsShared h m refClasses
                              target pathsNumber
                              objectsNumber tags
                              reports)) := by
  refine ⟨exists_reports h m refClasses target tags, ?_⟩
  intro reports hReports
  refine ⟨?_, ?_, ?_⟩
  · intro hApart
    rcases exists_outcome m hApart pathsNumber objectsNumber
        tags hReports with ⟨c, n, hCollect, hTraced⟩
    refine ⟨c, n, hCollect, exists_answered c, ?_⟩
    intro objects hAnswered
    rcases hTraced.executes hAnswered with
      ⟨result, hReal, hExecutes⟩
    exact ⟨result,
      fun fuel hFuel => hExecutes fuel (hCollect fuel hFuel),
      hReal⟩
  · rintro c objects result fuel hCollect hResult
      ⟨a, hA, b, hB, hNe, hCarrierA, hCarrierB⟩
    exact not_real_of_two hReports hCollect hResult hA hB hNe
      hCarrierA hCarrierB
  · intro hFree hBalance
    refine ⟨?_, ?_⟩
    · exact fun hStale =>
        hStale.exists_answered hFree hReports pathsNumber
          objectsNumber
    · intro a b hNe hCarrierA hCarrierB c objects fuel
        hCollect hAnswered
      exact real_iff hFree hBalance hReports hNe hCarrierA
        hCarrierB hCollect hAnswered

/- The result shows a root reference to object 2. -/
theorem not_links_real :
    ¬ ∀ (h : Heap (Fin 4)) (m : Addresses)
        (refClasses : List (Fin 4)) (target : Fin 4)
        (pathsNumber objectsNumber : Int32) (tags : GcTags)
        (reports : List (Report (Fin 4))),
      h.FollowReferences none (collectPaths m)
          (initialTags m refClasses target tags).2 reports →
        ∀ fuel c objects result,
          collectPathsToClosestGcRoots h m refClasses target
              pathsNumber objectsNumber tags reports fuel =
                some c →
            Answered c objects →
              executeOperation h m refClasses target
                  pathsNumber objectsNumber tags reports
                  objects fuel = some result →
                Real h target result := by
  intro hAll
  have hCollect :
      ∃ c,
        collectPathsToClosestGcRoots twoReferenceClasses
            ascendingAddresses [0, 2] 1 10 50 noTags
            twoReferenceClassesReports 10 = some c ∧
          Answered c [2, 0, 1] := by
    refine ⟨_, rfl, ⟨by decide, by decide⟩⟩
  rcases hCollect with ⟨c, hCollect, hAnswered⟩
  have hResult :
      executeOperation twoReferenceClasses ascendingAddresses
          [0, 2] 1 10 50 noTags twoReferenceClassesReports
          [2, 0, 1] 10 =
        some ⟨[2, 0, 1],
          [[⟨-1, .thread, .none⟩], [⟨-1, .thread, .none⟩],
            [⟨1, .staticField, .index 0⟩]],
          [true, true, true]⟩ := by
    decide
  have hReal := hAll _ _ _ _ _ _ _ _ (by decide) _ _ _ _
    hCollect hAnswered hResult
  rcases hReal.rootLinks 0 2 _ rfl rfl _
      (List.mem_singleton_self _) rfl with
    ⟨r, hRoot, hReferee, _⟩
  rw [List.mem_singleton.mp hRoot] at hReferee
  exact absurd hReferee (by decide)

end Roots

end MemoryAgent
