import Mathlib.Data.Finset.Card
import Mathlib.Data.Finset.Dedup
import MemoryAgent.Sizes.Tags.TagInfoArray

/-
  What the constructor that merges two arrays writes, for
  arrays that are strictly increasing in index.

  Key definitions include:
    * `TagInfoArray.Increasing`
    * `TagInfoArray.stateAt`
    * `TagInfoArray.mergedState`

  Main results:
    * `TagInfoArray.mergeInfos_increasing`
    * `TagInfoArray.stateAt_mergeInfos`
    * `TagInfoArray.merge_spec`
-/

------------------------------------------------------------
-- Lookup
------------------------------------------------------------

namespace MemoryAgent

namespace SizesTags

namespace TagInfoArray

def Increasing (infos : List TagInfo) : Prop :=
  infos.Pairwise (fun a b => a.index < b.index)

instance (infos : List TagInfo) :
    Decidable (Increasing infos) := by
  unfold Increasing
  infer_instance

def indices (infos : List TagInfo) : List Nat :=
  infos.map TagInfo.index

/- The state of the info with an index. -/
def stateAt
    (infos : List TagInfo)
    (k : Nat) : Option (BitVec 8) :=
  (infos.find? (fun info => info.index == k)).map
    TagInfo.state

/- The state that the merged array gets for an index. -/
def mergedState
    (alreadyVisited : Bool)
    (referree referrer : Option (BitVec 8)) :
    Option (BitVec 8) :=
  match referree, referrer with
  | some s, some r => some (updateState s r)
  | some s, none =>
      some (updateState s (createState false false true true))
  | none, some r =>
      some (updateState
        (createState false false alreadyVisited true) r)
  | none, none => none

variable {infos referree referrer : List TagInfo}
variable {info : TagInfo}
variable {k : Nat}
variable {alreadyVisited : Bool}

@[simp] theorem stateAt_nil
    (k : Nat) :
    stateAt [] k = none :=
  rfl

theorem stateAt_cons
    (info : TagInfo)
    (infos : List TagInfo)
    (k : Nat) :
    stateAt (info :: infos) k =
      if info.index = k then some info.state
      else stateAt infos k := by
  unfold stateAt
  by_cases hEq : info.index = k
  · simp [hEq]
  · simp [hEq]

theorem stateAt_eq_none
    (hLt : ∀ x ∈ infos, k < x.index) :
    stateAt infos k = none := by
  unfold stateAt
  rw [Option.map_eq_none_iff, List.find?_eq_none]
  intro x hMem
  have hNe := hLt x hMem
  simp only [beq_iff_eq]
  omega

theorem Increasing.lt
    (hIncreasing : Increasing (info :: infos)) :
    ∀ x ∈ infos, info.index < x.index :=
  (List.pairwise_cons.mp hIncreasing).1

theorem Increasing.tail
    (hIncreasing : Increasing (info :: infos)) :
    Increasing infos :=
  (List.pairwise_cons.mp hIncreasing).2

theorem Increasing.indices_nodup
    (hIncreasing : Increasing infos) :
    (indices infos).Nodup := by
  unfold indices List.Nodup
  rw [List.pairwise_map]
  exact hIncreasing.imp (fun hLt => Nat.ne_of_lt hLt)

theorem Increasing.nodup
    (hIncreasing : Increasing infos) :
    infos.Nodup :=
  List.Nodup.of_map TagInfo.index hIncreasing.indices_nodup

theorem stateAt_eq_some_iff
    (hIncreasing : Increasing infos)
    {state : BitVec 8} :
    stateAt infos k = some state ↔ ⟨k, state⟩ ∈ infos := by
  induction infos with
  | nil => simp
  | cons x infos ih =>
      rw [stateAt_cons, List.mem_cons]
      by_cases hEq : x.index = k
      · rw [if_pos hEq, ← hEq]
        constructor
        · intro hState
          rw [← Option.some.inj hState]
          exact Or.inl rfl
        · rintro (hHead | hTail)
          · rw [← hHead]
          · exact absurd (hIncreasing.lt _ hTail)
              (Nat.lt_irrefl _)
      · rw [if_neg hEq, ih hIncreasing.tail]
        constructor
        · exact Or.inr
        · rintro (hHead | hTail)
          · rw [← hHead] at hEq
            exact absurd rfl hEq
          · exact hTail

theorem mem_indices_iff
    {k : Nat} :
    k ∈ indices infos ↔ stateAt infos k ≠ none := by
  induction infos with
  | nil => simp [indices]
  | cons x infos ih =>
      rw [stateAt_cons]
      by_cases hEq : x.index = k
      · simp [indices, hEq]
      · rw [if_neg hEq, ← ih]
        simp [indices, Ne.symm hEq]

/- The states determine an increasing array. -/
theorem eq_of_stateAt
    {others : List TagInfo}
    (hIncreasing : Increasing infos)
    (hOthers : Increasing others)
    (hSame : ∀ k, stateAt infos k = stateAt others k) :
    infos = others := by
  have hMem : ∀ x, x ∈ infos ↔ x ∈ others := by
    rintro ⟨k, state⟩
    rw [← stateAt_eq_some_iff hIncreasing,
      ← stateAt_eq_some_iff hOthers, hSame]
  have hPerm : infos.Perm others :=
    (List.perm_ext_iff_of_nodup hIncreasing.nodup
      hOthers.nodup).mpr hMem
  apply hPerm.eq_of_pairwise ?_ hIncreasing hOthers
  intro a b _ _ hLt hGt
  omega

/- Changing the states keeps the indices. -/
theorem stateAt_map
    (f : TagInfo → TagInfo)
    (hIndex : ∀ x, (f x).index = x.index)
    (g : BitVec 8 → BitVec 8)
    (hState : ∀ x, (f x).state = g x.state)
    (infos : List TagInfo)
    (k : Nat) :
    stateAt (infos.map f) k = (stateAt infos k).map g := by
  induction infos with
  | nil => rfl
  | cons x infos ih =>
      rw [List.map_cons, stateAt_cons, stateAt_cons, ih,
        hIndex, hState]
      split
      · rfl
      · rfl

------------------------------------------------------------
-- Merged Arrays
------------------------------------------------------------

theorem mem_indices_mergeInfos
    (alreadyVisited : Bool)
    (referree referrer : List TagInfo)
    (k : Nat) :
    k ∈ indices
        (mergeInfos alreadyVisited referree referrer) ↔
      k ∈ indices referree ∨ k ∈ indices referrer := by
  unfold indices
  induction referree, referrer using newArraySize.induct with
  | case1 referrer =>
      have hSame :
          TagInfo.index ∘ newInfo alreadyVisited =
            TagInfo.index :=
        rfl
      rw [mergeInfos, List.map_map, hSame]
      simp
  | case2 referree hNe =>
      cases referree with
      | nil => exact absurd rfl hNe
      | cons i referree =>
          have hSame :
              TagInfo.index ∘ oldInfo = TagInfo.index :=
            rfl
          rw [mergeInfos, List.map_map, hSame]
          · simp
          · simp
  | case3 i referree j referrer hEq ih =>
      rw [mergeInfos, if_pos hEq, List.map_cons,
        List.mem_cons, ih]
      simp only [List.map_cons, List.mem_cons, ← hEq]
      constructor
      · rintro (h | h | h)
        · exact Or.inl (Or.inl h)
        · exact Or.inl (Or.inr h)
        · exact Or.inr (Or.inr h)
      · rintro ((h | h) | h | h)
        · exact Or.inl h
        · exact Or.inr (Or.inl h)
        · exact Or.inl h
        · exact Or.inr (Or.inr h)
  | case4 i referree j referrer hNe hLt ih =>
      rw [mergeInfos, if_neg hNe, if_pos hLt, List.map_cons,
        List.mem_cons, ih]
      simp only [oldInfo, List.map_cons, List.mem_cons]
      constructor
      · rintro (h | h | h)
        · exact Or.inl (Or.inl h)
        · exact Or.inl (Or.inr h)
        · exact Or.inr h
      · rintro ((h | h) | h)
        · exact Or.inl h
        · exact Or.inr (Or.inl h)
        · exact Or.inr (Or.inr h)
  | case5 i referree j referrer hNe hLt ih =>
      rw [mergeInfos, if_neg hNe, if_neg hLt, List.map_cons,
        List.mem_cons, ih]
      simp only [newInfo, List.map_cons, List.mem_cons]
      constructor
      · rintro (h | h | h)
        · exact Or.inr (Or.inl h)
        · exact Or.inl h
        · exact Or.inr (Or.inr h)
      · rintro (h | h | h)
        · exact Or.inr (Or.inl h)
        · exact Or.inl h
        · exact Or.inr (Or.inr h)

/- All indices of a merged array are above a lower bound. -/
theorem lt_index_mergeInfos
    (hReferree : ∀ x ∈ referree, k < x.index)
    (hReferrer : ∀ x ∈ referrer, k < x.index) :
    ∀ x ∈ mergeInfos alreadyVisited referree referrer,
      k < x.index := by
  intro x hMem
  have hIndex :
      x.index ∈ indices
        (mergeInfos alreadyVisited referree referrer) :=
    List.mem_map_of_mem hMem
  rcases (mem_indices_mergeInfos alreadyVisited referree
      referrer x.index).mp hIndex with hOld | hNew
  · rcases List.mem_map.mp hOld with ⟨y, hY, hEq⟩
    rw [← hEq]
    exact hReferree y hY
  · rcases List.mem_map.mp hNew with ⟨y, hY, hEq⟩
    rw [← hEq]
    exact hReferrer y hY

theorem mergeInfos_increasing
    (hReferree : Increasing referree)
    (hReferrer : Increasing referrer) :
    Increasing
      (mergeInfos alreadyVisited referree referrer) := by
  induction referree, referrer using newArraySize.induct with
  | case1 referrer =>
      rw [mergeInfos]
      exact List.pairwise_map.mpr hReferrer
  | case2 referree hNe =>
      cases referree with
      | nil => exact absurd rfl hNe
      | cons i referree =>
          rw [mergeInfos]
          · exact List.pairwise_map.mpr hReferree
          · exact fun h => List.cons_ne_nil _ _ h
  | case3 i referree j referrer hEq ih =>
      rw [mergeInfos, if_pos hEq]
      refine List.pairwise_cons.mpr
        ⟨?_, ih hReferree.tail hReferrer.tail⟩
      apply lt_index_mergeInfos hReferree.lt
      intro x hMem
      rw [hEq]
      exact hReferrer.lt x hMem
  | case4 i referree j referrer hNe hLt ih =>
      rw [mergeInfos, if_neg hNe, if_pos hLt]
      refine List.pairwise_cons.mpr
        ⟨?_, ih hReferree.tail hReferrer⟩
      apply lt_index_mergeInfos hReferree.lt
      intro x hMem
      rcases List.mem_cons.mp hMem with hHead | hTail
      · rw [hHead]
        exact hLt
      · exact hLt.trans (hReferrer.lt x hTail)
  | case5 i referree j referrer hNe hLt ih =>
      have hGt : j.index < i.index := by omega
      rw [mergeInfos, if_neg hNe, if_neg hLt]
      refine List.pairwise_cons.mpr
        ⟨?_, ih hReferree hReferrer.tail⟩
      apply lt_index_mergeInfos ?_ hReferrer.lt
      intro x hMem
      rcases List.mem_cons.mp hMem with hHead | hTail
      · rw [hHead]
        exact hGt
      · exact hGt.trans (hReferree.lt x hTail)

theorem stateAt_mergeInfos
    (hReferree : Increasing referree)
    (hReferrer : Increasing referrer)
    (k : Nat) :
    stateAt (mergeInfos alreadyVisited referree referrer) k =
      mergedState alreadyVisited (stateAt referree k)
        (stateAt referrer k) := by
  induction referree, referrer using newArraySize.induct with
  | case1 referrer =>
      rw [mergeInfos, stateAt_map (newInfo alreadyVisited)
        (fun _ => rfl)
        (updateState
          (createState false false alreadyVisited true))
        (fun _ => rfl), stateAt_nil]
      cases stateAt referrer k with
      | none => rfl
      | some r => rfl
  | case2 referree hNe =>
      cases referree with
      | nil => exact absurd rfl hNe
      | cons i referree =>
          rw [mergeInfos, stateAt_map oldInfo (fun _ => rfl)
            (fun s =>
              updateState s (createState false false true true))
            (fun _ => rfl), stateAt_nil]
          · cases stateAt (i :: referree) k with
            | none => rfl
            | some s => rfl
          · exact fun h => List.cons_ne_nil _ _ h
  | case3 i referree j referrer hEq ih =>
      rw [mergeInfos, if_pos hEq, stateAt_cons, stateAt_cons,
        stateAt_cons, ih hReferree.tail hReferrer.tail,
        ← hEq]
      by_cases hK : i.index = k
      · simp [hK, mergedState]
      · simp [hK]
  | case4 i referree j referrer hNe hLt ih =>
      rw [mergeInfos, if_neg hNe, if_pos hLt, stateAt_cons,
        ih hReferree.tail hReferrer,
        stateAt_cons i referree]
      by_cases hK : i.index = k
      · have hNone : stateAt (j :: referrer) k = none := by
          apply stateAt_eq_none
          intro x hMem
          rw [← hK]
          rcases List.mem_cons.mp hMem with hHead | hTail
          · rw [hHead]
            exact hLt
          · exact hLt.trans (hReferrer.lt x hTail)
        simp [hK, hNone, oldInfo, mergedState]
      · simp [hK, oldInfo]
  | case5 i referree j referrer hNe hLt ih =>
      have hGt : j.index < i.index := by omega
      rw [mergeInfos, if_neg hNe, if_neg hLt, stateAt_cons,
        ih hReferree hReferrer.tail, stateAt_cons j referrer]
      by_cases hK : j.index = k
      · have hNone : stateAt (i :: referree) k = none := by
          apply stateAt_eq_none
          intro x hMem
          rw [← hK]
          rcases List.mem_cons.mp hMem with hHead | hTail
          · rw [hHead]
            exact hGt
          · exact hGt.trans (hReferree.lt x hTail)
        simp [hK, hNone, newInfo, mergedState]
      · simp [hK, newInfo]

/- The number of infos written is that of all indices. -/
theorem length_mergeInfos_eq_card
    (alreadyVisited : Bool)
    (hReferree : Increasing referree)
    (hReferrer : Increasing referrer) :
    (mergeInfos alreadyVisited referree referrer).length =
      ((indices referree).toFinset ∪
        (indices referrer).toFinset).card := by
  have hIncreasing :
      Increasing
        (mergeInfos alreadyVisited referree referrer) :=
    mergeInfos_increasing hReferree hReferrer
  have hSame :
      (indices (mergeInfos alreadyVisited referree
          referrer)).toFinset =
        (indices referree).toFinset ∪
          (indices referrer).toFinset := by
    ext k
    rw [List.mem_toFinset, Finset.mem_union,
      List.mem_toFinset, List.mem_toFinset]
    exact mem_indices_mergeInfos alreadyVisited referree
      referrer k
  rw [← hSame,
    List.toFinset_card_of_nodup hIncreasing.indices_nodup]
  exact (List.length_map _).symm

/- Infos with indices of `count` positions. -/
theorem card_indices_le
    {count : Nat}
    {referree referrer : List TagInfo}
    (hReferree : ∀ k ∈ indices referree, k < count)
    (hReferrer : ∀ k ∈ indices referrer, k < count) :
    ((indices referree).toFinset ∪
      (indices referrer).toFinset).card ≤ count := by
  have hSubset :
      (indices referree).toFinset ∪
          (indices referrer).toFinset ⊆
        Finset.range count := by
    intro k hMem
    rw [Finset.mem_range]
    rcases Finset.mem_union.mp hMem with hOld | hNew
    · exact hReferree k (List.mem_toFinset.mp hOld)
    · exact hReferrer k (List.mem_toFinset.mp hNew)
  have hCard := Finset.card_le_card hSubset
  rw [Finset.card_range] at hCard
  exact hCard

theorem merge_infos
    {referree referrer : TagInfoArray}
    (hReferree : Increasing referree.infos)
    (hReferrer : Increasing referrer.infos)
    (hUnion :
      ((indices referree.infos).toFinset ∪
        (indices referrer.infos).toFinset).card ≤ 65535) :
    (referree.merge referrer).infos =
      mergeInfos referree.alreadyVisited referree.infos
        referrer.infos := by
  apply filled_infos
  rw [length_mergeInfos_eq_card _ hReferree hReferrer]
  exact Nat.lt_succ_of_le hUnion

/-
  The constructor allocates what it writes, and the merged
  array is increasing, with the states of `mergedState` at
  the indices of either array.
-/
theorem merge_spec
    (referree referrer : TagInfoArray)
    (hReferree : Increasing referree.infos)
    (hReferrer : Increasing referrer.infos)
    (hUnion :
      ((indices referree.infos).toFinset ∪
        (indices referrer.infos).toFinset).card ≤ 65535) :
    getNewArraySize referree referrer =
        (mergeInfos referree.alreadyVisited referree.infos
          referrer.infos).length ∧
      (referree.merge referrer).infos =
        mergeInfos referree.alreadyVisited referree.infos
          referrer.infos ∧
      Increasing (referree.merge referrer).infos ∧
      (∀ k, k ∈ indices (referree.merge referrer).infos ↔
        k ∈ indices referree.infos ∨
          k ∈ indices referrer.infos) ∧
      (∀ k,
        stateAt (referree.merge referrer).infos k =
          mergedState referree.alreadyVisited
            (stateAt referree.infos k)
            (stateAt referrer.infos k)) ∧
      (referree.alreadyVisited = true ↔
        referree.infos = [] ∨
          ∃ info rest, referree.infos = info :: rest ∧
            isAlreadyVisited info.state = true) := by
  have hInfos := merge_infos hReferree hReferrer hUnion
  refine ⟨?_, hInfos, ?_, ?_, ?_, ?_⟩
  · rw [← getNewArraySize_eq]
    unfold getSize
    rw [hInfos]
  · rw [hInfos]
    exact mergeInfos_increasing hReferree hReferrer
  · rw [hInfos]
    exact mem_indices_mergeInfos _ _ _
  · rw [hInfos]
    exact stateAt_mergeInfos hReferree hReferrer
  · unfold alreadyVisited
    cases referree.infos with
    | nil => simp
    | cons info rest => simp

/- Four infos of two arrays, one index in both. -/
theorem merge_spec_overlap :
    (merge
        ⟨[⟨1, createState true true false false⟩,
          ⟨4, createState true true false false⟩], by decide⟩
        ⟨[⟨2, createState false true true true⟩,
          ⟨4, createState false true false true⟩],
          by decide⟩).infos.map TagInfo.index =
      [1, 2, 4] := by
  have hSpec :=
    merge_spec
      ⟨[⟨1, createState true true false false⟩,
        ⟨4, createState true true false false⟩], by decide⟩
      ⟨[⟨2, createState false true true true⟩,
        ⟨4, createState false true false true⟩], by decide⟩
      (by decide) (by decide) (by decide)
  rw [hSpec.2.1]
  decide +kernel

end TagInfoArray

end SizesTags

end MemoryAgent
