import MemoryAgent.Sizes.Tags.MergedInfos

/-
  `shouldMerge` tells whether some info of the referrer is
  new for the referree.  A merge it advises against may
  still mark infos that the referrer does not have.

  Key definitions include:
    * `TagInfoArray.Visited`

  Main results:
    * `TagInfoArray.newForReferree_eq_false_iff`
    * `TagInfoArray.merge_unchanged_iff`
    * `TagInfoArray.shouldMerge_safe_iff`
-/

------------------------------------------------------------
-- The Guard
------------------------------------------------------------

namespace MemoryAgent

namespace SizesTags

namespace TagInfoArray

/- All infos are already visited. -/
def Visited (infos : List TagInfo) : Prop :=
  ∀ info ∈ infos, ∃ start subtree outside,
    info.state = createState start subtree outside true

variable {referree referrer : List TagInfo}

/- The loop finds an info that the referree does not have. -/
theorem newForReferree_eq_false_iff
    (hReferree : Increasing referree)
    (hReferrer : Increasing referrer) :
    newForReferree referree referrer = false ↔
      referrer ⊆ referree := by
  induction referree, referrer using
    newForReferree.induct with
  | case1 referree => simp [newForReferree]
  | case2 j referrer => simp [newForReferree]
  | case3 i referree j referrer hIndex hState ih =>
      have hEq : i = j := by
        cases i
        cases j
        simp_all
      rw [newForReferree, if_pos hIndex, if_pos hState,
        ih hReferree.tail hReferrer.tail, hEq]
      constructor
      · intro hSubset
        exact List.cons_subset_cons j hSubset
      · intro hSubset x hMem
        rcases List.mem_cons.mp
            (hSubset (List.mem_cons_of_mem j hMem)) with
          hHead | hTail
        · have hLt := hReferrer.lt x hMem
          rw [hHead] at hLt
          omega
        · exact hTail
  | case4 i referree j referrer hIndex hState =>
      rw [newForReferree, if_pos hIndex, if_neg hState]
      constructor
      · intro hFalse
        cases hFalse
      · intro hSubset
        rcases List.mem_cons.mp
            (hSubset List.mem_cons_self) with hHead | hTail
        · rw [hHead] at hState
          exact absurd rfl hState
        · have hLt := hReferree.lt j hTail
          omega
  | case5 i referree j referrer hNe hLt ih =>
      rw [newForReferree, if_neg hNe, if_pos hLt,
        ih hReferree.tail hReferrer]
      constructor
      · intro hSubset
        exact List.subset_cons_of_subset i hSubset
      · intro hSubset x hMem
        rcases List.mem_cons.mp (hSubset hMem) with
          hHead | hTail
        · have hLe : j.index ≤ x.index := by
            rcases List.mem_cons.mp hMem with hEq | hRest
            · rw [hEq]
            · exact Nat.le_of_lt (hReferrer.lt x hRest)
          rw [hHead] at hLe
          omega
        · exact hTail
  | case6 i referree j referrer hNe hNotLt =>
      rw [newForReferree, if_neg hNe, if_neg hNotLt]
      constructor
      · intro hFalse
        cases hFalse
      · intro hSubset
        rcases List.mem_cons.mp
            (hSubset List.mem_cons_self) with hHead | hTail
        · rw [hHead] at hNe
          exact absurd rfl hNe
        · have hLt := hReferree.lt j hTail
          omega

/- The test of the sizes does not change the answer. -/
theorem shouldMerge_eq_false_iff
    {referree referrer : TagInfoArray}
    (hReferree : Increasing referree.infos)
    (hReferrer : Increasing referrer.infos) :
    referree.shouldMerge referrer = false ↔
      referrer.infos ⊆ referree.infos := by
  unfold shouldMerge
  split
  · next hSize =>
      constructor
      · intro hFalse
        cases hFalse
      · intro hSubset
        have hLe :=
          (hReferrer.nodup.subperm hSubset).length_le
        unfold getSize at hSize
        omega
  · exact newForReferree_eq_false_iff hReferree hReferrer

------------------------------------------------------------
-- Skipped Merges
------------------------------------------------------------

/- Merging a visited state with itself. -/
theorem updateState_self
    (start subtree outside : Bool) :
    updateState (createState start subtree outside true)
        (createState start subtree outside true) =
      createState start subtree outside true := by
  revert start subtree outside
  decide

theorem updateState_missing_eq_iff
    (start subtree outside : Bool) :
    updateState (createState start subtree outside true)
        (createState false false true true) =
      createState start subtree outside true ↔
        isReachableOutside
          (createState start subtree outside true) =
          true := by
  revert start subtree outside
  decide

theorem merge_infos_of_subset
    {referree referrer : TagInfoArray}
    (hReferree : Increasing referree.infos)
    (hReferrer : Increasing referrer.infos)
    (hSubset : referrer.infos ⊆ referree.infos) :
    (referree.merge referrer).infos =
      mergeInfos referree.alreadyVisited referree.infos
        referrer.infos := by
  apply merge_infos hReferree hReferrer
  have hIndices :
      (indices referrer.infos).toFinset ⊆
        (indices referree.infos).toFinset := by
    intro k hMem
    rw [List.mem_toFinset] at hMem ⊢
    exact List.map_subset TagInfo.index hSubset hMem
  rw [Finset.union_eq_left.mpr hIndices,
    List.toFinset_card_of_nodup hReferree.indices_nodup]
  have hLt := referree.size_lt
  unfold indices querySize at *
  rw [List.length_map]
  omega

/-
  A merge of infos that the referree has changes nothing if
  the infos that are missing are marked already.
-/
theorem merge_unchanged_iff
    {referree referrer : TagInfoArray}
    (hReferree : Increasing referree.infos)
    (hReferrer : Increasing referrer.infos)
    (hVisited : Visited referree.infos)
    (hSubset : referrer.infos ⊆ referree.infos) :
    (referree.merge referrer).infos = referree.infos ↔
      ∀ info ∈ referree.infos,
        info.index ∉ indices referrer.infos →
          isReachableOutside info.state = true := by
  have hMissing :
      ∀ info ∈ referree.infos,
        info.index ∉ indices referrer.infos →
          stateAt referrer.infos info.index = none := by
    intro info _ hNot
    rw [mem_indices_iff, not_not] at hNot
    exact hNot
  rw [merge_infos_of_subset hReferree hReferrer hSubset]
  constructor
  · intro hSame info hMem hNot
    have hState :
        stateAt referree.infos info.index =
          some info.state :=
      (stateAt_eq_some_iff hReferree).mpr hMem
    have hMerged :
        stateAt
            (mergeInfos referree.alreadyVisited
              referree.infos referrer.infos) info.index =
          mergedState referree.alreadyVisited
            (stateAt referree.infos info.index)
            (stateAt referrer.infos info.index) :=
      stateAt_mergeInfos hReferree hReferrer info.index
    rw [hSame, hState, hMissing info hMem hNot] at hMerged
    rcases hVisited info hMem with
      ⟨start, subtree, outside, hEq⟩
    have hUpdate := Option.some.inj hMerged
    rw [hEq] at hUpdate ⊢
    exact (updateState_missing_eq_iff start subtree
      outside).mp hUpdate.symm
  · intro hOutside
    apply eq_of_stateAt
      (mergeInfos_increasing hReferree hReferrer) hReferree
    intro k
    rw [stateAt_mergeInfos hReferree hReferrer]
    cases hOld : stateAt referree.infos k with
    | none =>
        cases hNew : stateAt referrer.infos k with
        | none => rfl
        | some r =>
            have hMem :=
              (stateAt_eq_some_iff hReferrer).mp hNew
            have hState :=
              (stateAt_eq_some_iff hReferree).mpr
                (hSubset hMem)
            rw [hOld] at hState
            cases hState
    | some s =>
        have hMem := (stateAt_eq_some_iff hReferree).mp hOld
        rcases hVisited _ hMem with
          ⟨start, subtree, outside, hEq⟩
        cases hNew : stateAt referrer.infos k with
        | none =>
            have hNot : k ∉ indices referrer.infos := by
              rw [mem_indices_iff, not_not]
              exact hNew
            have hMark := hOutside _ hMem hNot
            dsimp only at hEq hMark
            rw [hEq] at hMark ⊢
            exact congrArg some
              ((updateState_missing_eq_iff start subtree
                outside).mpr hMark)
        | some r =>
            have hMemNew :=
              (stateAt_eq_some_iff hReferrer).mp hNew
            have hSame :=
              (stateAt_eq_some_iff hReferree).mpr
                (hSubset hMemNew)
            rw [hOld] at hSame
            dsimp only at hEq
            rw [← Option.some.inj hSame, hEq]
            exact congrArg some
              (updateState_self start subtree outside)

/-
  A merge that is skipped would change nothing, exactly if
  some info of the referrer is new for the referree or if
  the infos that the referrer does not have are marked.
-/
theorem shouldMerge_safe_iff
    (referree referrer : TagInfoArray)
    (hReferree : Increasing referree.infos)
    (hReferrer : Increasing referrer.infos)
    (hVisited : Visited referree.infos) :
    (referree.shouldMerge referrer = false →
        (referree.merge referrer).infos = referree.infos) ↔
      (∃ info ∈ referrer.infos, info ∉ referree.infos) ∨
        ∀ info ∈ referree.infos,
          info.index ∉ indices referrer.infos →
            isReachableOutside info.state = true := by
  rw [shouldMerge_eq_false_iff hReferree hReferrer]
  by_cases hSubset : referrer.infos ⊆ referree.infos
  · have hNone :
        ¬ ∃ info ∈ referrer.infos,
            info ∉ referree.infos := by
      rintro ⟨info, hMem, hNot⟩
      exact hNot (hSubset hMem)
    rw [merge_unchanged_iff hReferree hReferrer hVisited
      hSubset]
    constructor
    · intro hSafe
      exact Or.inr (hSafe hSubset)
    · intro hSafe _
      exact hSafe.resolve_left hNone
  · constructor
    · intro _
      apply Or.inl
      by_contra hNone
      apply hSubset
      intro info hMem
      by_contra hNot
      exact hNone ⟨info, hMem, hNot⟩
    · intro _ hSub
      exact absurd hSub hSubset

/- Two infos in a subtree, and the first one of them. -/
def subtreeInfos : TagInfoArray :=
  ⟨[⟨1, createState false true false true⟩,
    ⟨2, createState false true false true⟩], by decide⟩

def firstSubtreeInfo : TagInfoArray :=
  .ofInfo ⟨1, createState false true false true⟩

/- The second info belongs to the referrer only. -/
theorem shouldMerge_safe_iff_new :
    (∃ info ∈ subtreeInfos.infos,
        info ∉ firstSubtreeInfo.infos) ∧
      (firstSubtreeInfo.shouldMerge subtreeInfos = false →
        (firstSubtreeInfo.merge subtreeInfos).infos =
          firstSubtreeInfo.infos) := by
  have hVisited : Visited firstSubtreeInfo.infos := by
    intro info hMem
    rw [List.mem_singleton.mp hMem]
    exact ⟨false, true, false, rfl⟩
  have hNew :
      ∃ info ∈ subtreeInfos.infos,
        info ∉ firstSubtreeInfo.infos :=
    ⟨⟨2, createState false true false true⟩, by decide,
      by decide⟩
  exact ⟨hNew,
    (shouldMerge_safe_iff firstSubtreeInfo subtreeInfos
      (by decide) (by decide) hVisited).mpr (Or.inl hNew)⟩

/- The second info is not marked, as the merge would. -/
theorem not_shouldMerge_safe :
    ¬ ∀ referree referrer : TagInfoArray,
        Increasing referree.infos →
          Increasing referrer.infos →
            Visited referree.infos →
              Visited referrer.infos →
                referree.shouldMerge referrer = false →
                  (referree.merge referrer).infos =
                    referree.infos := by
  intro hSafe
  have hVisited : Visited subtreeInfos.infos := by
    intro info hMem
    refine ⟨false, true, false, ?_⟩
    rcases List.mem_cons.mp hMem with hHead | hTail
    · rw [hHead]
    · rw [List.mem_singleton.mp hTail]
  have hFirst : Visited firstSubtreeInfo.infos := by
    intro info hMem
    rw [List.mem_singleton.mp hMem]
    exact ⟨false, true, false, rfl⟩
  have hSame :=
    hSafe subtreeInfos firstSubtreeInfo (by decide)
      (by decide) hVisited hFirst (by decide)
  revert hSame
  decide +kernel

end TagInfoArray

end SizesTags

end MemoryAgent
