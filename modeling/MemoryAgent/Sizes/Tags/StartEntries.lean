import MemoryAgent.Sizes.Tags.Contents

/-
  The entries of start objects.  Each tag has the start
  marks of the object that carries it, whatever other infos
  it collects, until it is reset to `TagWithNewInfo`.

  Key definitions include:
    * `TagInfoArray.startIndices`
    * `SizesTags.Query`
    * `SizesTags.Query.Fits`
    * `SizesTags.Query.Started`

  Main results:
    * `TagInfoArray.startIndices_mergeInfos`
    * `SizesTags.Query.Fits.merge`
    * `SizesTags.Query.Started.reshaped`
-/

------------------------------------------------------------
-- Start Marks
------------------------------------------------------------

namespace MemoryAgent

namespace SizesTags

namespace TagInfoArray

/- An info of a start object, as it is created. -/
def startInfo (index : Nat) : TagInfo :=
  ⟨index, createState true true false false⟩

/- The indices of the infos that are marked as start. -/
def startIndices (infos : List TagInfo) : List Nat :=
  indices
    (infos.filter (fun info => isStartObject info.state))

variable {infos referree referrer : List TagInfo}
variable {info : TagInfo}
variable {l : List Nat}

theorem startIndices_cons :
    startIndices (info :: infos) =
      if isStartObject info.state = true then
        info.index :: startIndices infos
      else
        startIndices infos := by
  unfold startIndices
  rw [List.filter_cons]
  split
  · rfl
  · rfl

theorem startIndices_startInfo :
    startIndices (l.map startInfo) = l := by
  induction l with
  | nil => rfl
  | cons i l ih =>
      rw [List.map_cons, startIndices_cons, ih, if_pos]
      · rfl
      · exact isStartObject_createState true true false false

theorem indices_startInfo :
    indices (l.map startInfo) = l := by
  unfold indices
  rw [List.map_map]
  exact List.map_id l

theorem increasing_startInfo
    (hL : l.Pairwise (· < ·)) :
    Increasing (l.map startInfo) :=
  List.pairwise_map.mpr hL

/- New states with the same marks. -/
theorem startIndices_map
    {f : TagInfo → TagInfo}
    (hIndex : ∀ x, (f x).index = x.index)
    (hMark :
      ∀ x, isStartObject (f x).state =
        isStartObject x.state) :
    startIndices (infos.map f) = startIndices infos := by
  induction infos with
  | nil => rfl
  | cons x infos ih =>
      rw [List.map_cons, startIndices_cons,
        startIndices_cons, ih, hIndex, hMark]

/- New states without marks. -/
theorem startIndices_map_eq_nil
    {f : TagInfo → TagInfo}
    (hMark : ∀ x, isStartObject (f x).state = false) :
    startIndices (infos.map f) = [] := by
  induction infos with
  | nil => rfl
  | cons x infos ih =>
      rw [List.map_cons, startIndices_cons, ih, hMark]
      rfl

theorem isStartObject_updateState
    (current other : BitVec 8) :
    isStartObject (updateState current other) =
      isStartObject current :=
  isStartObject_createState _ _ _ _

/- A merged array has the start marks of the referree. -/
theorem startIndices_mergeInfos
    (alreadyVisited : Bool)
    (referree referrer : List TagInfo) :
    startIndices
        (mergeInfos alreadyVisited referree referrer) =
      startIndices referree := by
  have hNew :
      ∀ x, isStartObject
        (newInfo alreadyVisited x).state = false := by
    intro x
    exact (isStartObject_updateState _ _).trans
      (isStartObject_createState _ _ _ _)
  have hOld :
      ∀ x, isStartObject (oldInfo x).state =
        isStartObject x.state :=
    fun x => isStartObject_updateState _ _
  induction referree, referrer using newArraySize.induct with
  | case1 referrer =>
      rw [mergeInfos]
      exact startIndices_map_eq_nil hNew
  | case2 referree hNe =>
      cases referree with
      | nil => exact absurd rfl hNe
      | cons i referree =>
          rw [mergeInfos]
          · exact startIndices_map (fun _ => rfl) hOld
          · exact fun h => List.cons_ne_nil _ _ h
  | case3 i referree j referrer hEq ih =>
      rw [mergeInfos, if_pos hEq, startIndices_cons,
        startIndices_cons, ih, isStartObject_updateState]
  | case4 i referree j referrer hNe hLt ih =>
      rw [mergeInfos, if_neg hNe, if_pos hLt,
        startIndices_cons, startIndices_cons, ih, hOld]
      rfl
  | case5 i referree j referrer hNe hLt ih =>
      rw [mergeInfos, if_neg hNe, if_neg hLt,
        startIndices_cons, ih, hNew]
      rfl

/- A start mark is that of the info with its index. -/
theorem mem_startIndices_iff
    (hIncreasing : Increasing infos)
    {k : Nat} :
    k ∈ startIndices infos ↔
      ∃ state, stateAt infos k = some state ∧
        isStartObject state = true := by
  unfold startIndices indices
  rw [List.mem_map]
  constructor
  · rintro ⟨⟨i, state⟩, hMem, hEq⟩
    subst hEq
    rcases List.mem_filter.mp hMem with ⟨hInfo, hStart⟩
    exact ⟨state,
      (stateAt_eq_some_iff hIncreasing).mpr hInfo, hStart⟩
  · rintro ⟨state, hState, hStart⟩
    have hInfo := (stateAt_eq_some_iff hIncreasing).mp hState
    exact ⟨⟨k, state⟩, List.mem_filter.mpr ⟨hInfo, hStart⟩,
      rfl⟩

end TagInfoArray

------------------------------------------------------------
-- Queries
------------------------------------------------------------

open RecordStore TagMemory TagInfoArray

/-
  The positions of a list of objects or classes: those at
  which each object starts, and which of them are twins,
  with the same object.
-/
structure Query (O : Type) where
  count : Nat
  count_lt : count < querySize
  starts : O → List Nat
  twins : Nat → Nat → Prop
  starts_increasing : ∀ o, (starts o).Pairwise (· < ·)
  starts_lt : ∀ o, ∀ i ∈ starts o, i < count
  starts_twins :
    ∀ o i j, twins i j → (i ∈ starts o ↔ j ∈ starts o)

namespace Query

variable {O : Type}
variable {q : Query O}

/- Infos at positions of the list, alike at twins. -/
structure Fits
    (q : Query O)
    (infos : List TagInfo) : Prop where
  increasing : Increasing infos
  index_lt : ∀ k ∈ indices infos, k < q.count
  twins :
    ∀ i j, q.twins i j → stateAt infos i = stateAt infos j

theorem Fits.nil : q.Fits [] :=
  ⟨List.Pairwise.nil, fun _ hMem => absurd hMem
    List.not_mem_nil, fun _ _ _ => rfl⟩

theorem Fits.map
    {infos : List TagInfo}
    {f : TagInfo → TagInfo}
    {g : BitVec 8 → BitVec 8}
    (hFits : q.Fits infos)
    (hIndex : ∀ x, (f x).index = x.index)
    (hState : ∀ x, (f x).state = g x.state) :
    q.Fits (infos.map f) := by
  refine ⟨?_, ?_, ?_⟩
  · apply List.pairwise_map.mpr
    apply hFits.increasing.imp
    intro a b hLt
    rw [hIndex, hIndex]
    exact hLt
  · intro k hMem
    apply hFits.index_lt k
    have hSame : TagInfo.index ∘ f = TagInfo.index :=
      funext hIndex
    unfold indices at hMem ⊢
    rw [List.map_map, hSame] at hMem
    exact hMem
  · intro i j hTwins
    rw [stateAt_map f hIndex g hState,
      stateAt_map f hIndex g hState, hFits.twins i j hTwins]

/- So many indices fit into an array. -/
theorem Fits.card_le
    {referree referrer : List TagInfo}
    (hReferree : q.Fits referree)
    (hReferrer : q.Fits referrer) :
    ((indices referree).toFinset ∪
      (indices referrer).toFinset).card ≤ 65535 :=
  (card_indices_le hReferree.index_lt
    hReferrer.index_lt).trans (Nat.le_of_lt_succ q.count_lt)

theorem Fits.merge_infos
    {referree referrer : TagInfoArray}
    (hReferree : q.Fits referree.infos)
    (hReferrer : q.Fits referrer.infos) :
    (referree.merge referrer).infos =
      mergeInfos referree.alreadyVisited referree.infos
        referrer.infos :=
  TagInfoArray.merge_infos hReferree.increasing
    hReferrer.increasing (hReferree.card_le hReferrer)

theorem Fits.merge
    {referree referrer : TagInfoArray}
    (hReferree : q.Fits referree.infos)
    (hReferrer : q.Fits referrer.infos) :
    q.Fits (referree.merge referrer).infos := by
  rw [hReferree.merge_infos hReferrer]
  refine ⟨mergeInfos_increasing hReferree.increasing
    hReferrer.increasing, ?_, ?_⟩
  · intro k hMem
    rcases (mem_indices_mergeInfos _ _ _ k).mp hMem with
      hOld | hNew
    · exact hReferree.index_lt k hOld
    · exact hReferrer.index_lt k hNew
  · intro i j hTwins
    rw [stateAt_mergeInfos hReferree.increasing
        hReferrer.increasing,
      stateAt_mergeInfos hReferree.increasing
        hReferrer.increasing,
      hReferree.twins i j hTwins, hReferrer.twins i j hTwins]

theorem Fits.starts
    (q : Query O)
    (o : O) :
    q.Fits ((q.starts o).map startInfo) := by
  have hIncreasing :=
    increasing_startInfo (q.starts_increasing o)
  have hState :
      ∀ k, stateAt ((q.starts o).map startInfo) k =
        if k ∈ q.starts o then
          some (createState true true false false)
        else none := by
    intro k
    split
    · next hMem =>
        rw [stateAt_eq_some_iff hIncreasing]
        exact List.mem_map.mpr ⟨k, hMem, rfl⟩
    · next hNot =>
        by_contra hNe
        apply hNot
        have hMem := mem_indices_iff.mpr hNe
        rw [indices_startInfo] at hMem
        exact hMem
  refine ⟨hIncreasing, ?_, ?_⟩
  · intro k hMem
    rw [indices_startInfo] at hMem
    exact q.starts_lt o k hMem
  · intro i j hTwins
    rw [hState, hState]
    simp only [q.starts_twins o i j hTwins]

theorem length_starts_lt
    (q : Query O)
    (o : O) :
    (q.starts o).length < querySize := by
  have hNodup : (q.starts o).Nodup :=
    (q.starts_increasing o).imp Nat.ne_of_lt
  have hSubset :
      (q.starts o).toFinset ⊆ Finset.range q.count := by
    intro k hMem
    rw [Finset.mem_range]
    exact q.starts_lt o k (List.mem_toFinset.mp hMem)
  have hLe := Finset.card_le_card hSubset
  rw [Finset.card_range,
    List.toFinset_card_of_nodup hNodup] at hLe
  exact Nat.lt_of_le_of_lt hLe q.count_lt

------------------------------------------------------------
-- Started Objects
------------------------------------------------------------

/-
  An object whose tag has an address and contents: if it is
  a start object it is tagged, and only the first traversal
  `resets` the tag; other tags have its start marks.
-/
structure Holds
    (q : Query O)
    (m : TagAddresses)
    (resets : Bool)
    (o : O)
    (a : jlong)
    (content : Option Content) : Prop where
  tagged :
    q.starts o ≠ [] →
      a ≠ 0 ∧ (resets = false → a ≠ m.tagWithNewInfo)
  fits : ∀ c, content = some c → q.Fits c.infos
  marks :
    a ≠ m.tagWithNewInfo →
      ∀ c, content = some c →
        startIndices c.infos = q.starts o ∧
          (c.isStartTag = true ↔ q.starts o ≠ [])

def Started
    (q : Query O)
    (m : TagAddresses)
    (resets : Bool)
    (tag : O → jlong)
    (tags : TagMemory) : Prop :=
  ∀ o, q.Holds m resets o (tag o) (tags.contentAt m (tag o))

variable {m : TagAddresses}
variable {resets : Bool}
variable {o : O}
variable {a b : jlong}
variable {content : Option Content}

theorem Holds.mono
    (hHolds : q.Holds m false o a content) :
    q.Holds m resets o a content :=
  ⟨fun hNe => ⟨(hHolds.tagged hNe).1,
      fun _ => (hHolds.tagged hNe).2 rfl⟩,
    hHolds.fits, hHolds.marks⟩

/- No start object, and no infos. -/
theorem Holds.empty
    (hStarts : q.starts o = [])
    (hContent :
      ∀ c, content = some c → c = Content.empty) :
    q.Holds m resets o a content := by
  refine ⟨fun hNe => absurd hStarts hNe, ?_, ?_⟩
  · intro c hC
    rw [hContent c hC]
    exact Fits.nil
  · intro _ c hC
    rw [hContent c hC, hStarts]
    exact ⟨rfl, by simp [Content.empty]⟩

theorem Holds.created
    (hStarts : q.starts o ≠ [])
    (hNot : a ∉ m.reserved)
    (hContent :
      content =
        some ⟨(q.starts o).map startInfo, true⟩) :
    q.Holds m resets o a content := by
  refine ⟨fun _ => ⟨ne_zero_of_not_mem hNot,
    fun _ => ne_tagWithNewInfo_of_not_mem hNot⟩, ?_, ?_⟩
  · intro c hC
    rw [hContent] at hC
    rw [← Option.some.inj hC]
    exact Fits.starts q o
  · intro _ c hC
    rw [hContent] at hC
    rw [← Option.some.inj hC]
    exact ⟨startIndices_startInfo,
      iff_of_true rfl hStarts⟩

theorem Holds.visited
    (hHolds : q.Holds m resets o a content) :
    q.Holds m resets o a (content.map Content.visited) := by
  refine ⟨hHolds.tagged, ?_, ?_⟩
  · intro c hC
    rcases Option.map_eq_some_iff.mp hC with ⟨d, hD, hEq⟩
    rw [← hEq]
    exact (hHolds.fits d hD).map (fun _ => rfl)
      (g := asVisitedFromUntagged) (fun _ => rfl)
  · intro hNe c hC
    rcases Option.map_eq_some_iff.mp hC with ⟨d, hD, hEq⟩
    rw [← hEq]
    have hMarks := hHolds.marks hNe d hD
    refine ⟨?_, hMarks.2⟩
    rw [← hMarks.1]
    exact startIndices_map (fun _ => rfl)
      (fun x => isStartObject_asVisitedFromUntagged x.state)

/- An object that may take a shared tag does not start. -/
theorem Holds.starts_eq_nil
    (hHolds : q.Holds m resets o a content)
    (hUnset :
      a = 0 ∨ resets = false ∧ a = m.tagWithNewInfo) :
    q.starts o = [] := by
  by_contra hNe
  rcases hHolds.tagged hNe with ⟨hZero, hNew⟩
  rcases hUnset with h | ⟨hResets, h⟩
  · exact hZero h
  · exact hNew hResets h

/- It may take a tag without start marks. -/
theorem Holds.unmarked
    {c : Content}
    (hStarts : q.starts o = [])
    (hFits : q.Fits c.infos)
    (hMarks : startIndices c.infos = [])
    (hStart : c.isStartTag = false) :
    q.Holds m resets o a (some c) := by
  refine ⟨fun hNe => absurd hStarts hNe, ?_, ?_⟩
  · intro d hD
    rw [← Option.some.inj hD]
    exact hFits
  · intro _ d hD
    rw [← Option.some.inj hD, hStarts, hMarks, hStart]
    exact ⟨rfl, by simp⟩

theorem Fits.copyWithoutStartMarks
    {t : Tag}
    (hFits : q.Fits t.array.infos) :
    q.Fits t.copyWithoutStartMarks.array.infos :=
  hFits.map (fun _ => rfl)
    (g := updateState (createState false false false true))
    (fun _ => rfl)

theorem startIndices_copyWithoutStartMarks
    (t : Tag) :
    startIndices t.copyWithoutStartMarks.array.infos = [] :=
  startIndices_map_eq_nil
    (fun _ =>
      (isStartObject_updateState _ _).trans
        (isStartObject_createState _ _ _ _))

theorem content_mk
    (isStartTag alreadyReferred : Bool)
    (array : TagInfoArray)
    (refCount : Nat)
    (ids : Option (List Nat)) :
    (Tag.mk isStartTag alreadyReferred array refCount
        ids).content =
      ⟨array.infos, isStartTag⟩ :=
  rfl

-- `rfl` would unfold the merge of the arrays
theorem ofMerge_content
    (t r : Tag) :
    (Tag.ofMerge t r).content =
      ⟨(t.array.merge r.array).infos, t.isStartTag⟩ := by
  unfold Tag.ofMerge
  exact content_mk _ _ _ _ _

/- A merged tag has the marks of the tag it replaces. -/
theorem Holds.merge
    {t r : Tag}
    (hHolds : q.Holds m resets o a (some t.content))
    (hReferrer : q.Fits r.array.infos)
    (hResets : resets = true → a ≠ m.tagWithNewInfo)
    (hStatic :
      a = m.tagWithNewInfo → t.content = Content.empty)
    (hNot : b ∉ m.reserved) :
    q.Holds m resets o b
      (some (Tag.ofMerge t r).content) := by
  have hFits : q.Fits t.array.infos := hHolds.fits _ rfl
  have hMarks :
      startIndices t.array.infos = q.starts o ∧
        (t.isStartTag = true ↔ q.starts o ≠ []) := by
    by_cases hNew : a = m.tagWithNewInfo
    · have hFalse : resets = false := by
        by_contra hTrue
        rw [Bool.not_eq_false] at hTrue
        exact hResets hTrue hNew
      have hStarts :=
        hHolds.starts_eq_nil (Or.inr ⟨hFalse, hNew⟩)
      have hEmpty := hStatic hNew
      have hInfos : t.array.infos = [] :=
        congrArg Content.infos hEmpty
      have hStart : t.isStartTag = false :=
        congrArg Content.isStartTag hEmpty
      rw [hInfos, hStart, hStarts]
      exact ⟨rfl, by simp⟩
    · exact hHolds.marks hNew _ rfl
  rw [ofMerge_content]
  refine ⟨fun _ => ⟨ne_zero_of_not_mem hNot,
    fun _ => ne_tagWithNewInfo_of_not_mem hNot⟩, ?_, ?_⟩
  · intro c hC
    rw [← Option.some.inj hC]
    exact hFits.merge hReferrer
  · intro _ c hC
    rw [← Option.some.inj hC]
    refine ⟨?_, hMarks.2⟩
    dsimp only
    rw [hFits.merge_infos hReferrer, startIndices_mergeInfos]
    exact hMarks.1

variable {tag : O → jlong}
variable {tags tags' : TagMemory}
variable [DecidableEq O]

/- One object takes a tag; the others keep theirs. -/
theorem Started.update
    (hOthers :
      ∀ p, p ≠ o →
        q.Holds m resets p (tag p)
          (tags'.contentAt m (tag p)))
    (hSelf :
      q.Holds m resets o b (tags'.contentAt m b)) :
    q.Started m resets (Function.update tag o b) tags' := by
  intro p
  by_cases hEq : p = o
  · rw [hEq, Function.update_self]
    exact hSelf
  · rw [Function.update_of_ne hEq]
    exact hOthers p hEq

/- No callback of a traversal drops or moves a start mark. -/
theorem Started.reshaped
    (hStarted : q.Started m resets tag tags)
    (hReshaped : Reshaped m tag tags o resets b tags') :
    q.Started m resets (Function.update tag o b) tags' := by
  have hSame :
      SameContents m tag o tags tags' →
        ∀ p, p ≠ o →
          q.Holds m resets p (tag p)
            (tags'.contentAt m (tag p)) := by
    intro hContents p hNe
    rw [hContents p hNe]
    exact hStarted p
  have hSelf := hStarted o
  cases hReshaped with
  | keep hAll =>
      refine Started.update (fun p _ => ?_) ?_
      · rw [hAll]
        exact hStarted p
      · rw [hAll]
        exact hSelf
  | empty hZero hContents =>
      refine Started.update (hSame hContents) ?_
      rw [contentAt_of_static (Or.inl rfl)]
      exact Holds.empty (hSelf.starts_eq_nil (Or.inl hZero))
        (fun c hC => (Option.some.inj hC).symm)
  | reset hResets hContents =>
      refine Started.update (hSame hContents) ?_
      rw [contentAt_of_static (Or.inr (Or.inl rfl))]
      refine ⟨fun _ => ⟨(static_ne m).2.1, ?_⟩, ?_, ?_⟩
      · rw [hResets]
        intro hFalse
        cases hFalse
      · intro c hC
        rw [← Option.some.inj hC]
        exact Fits.nil
      · exact fun hNe => absurd rfl hNe
  | visit hOthers hVisited =>
      refine Started.update (fun p _ => ?_) ?_
      · by_cases hTag : tag p = tag o
        · rw [hTag, hVisited, ← hTag]
          exact (hStarted p).visited
        · rw [hOthers p hTag]
          exact hStarted p
      · rw [hVisited]
        exact hSelf.visited
  | @share r c _ hUnset hReferrer hContent hStart hAll =>
      have hNew := ne_tagWithNewInfo_of_not_mem hReferrer
      have hMarks := (hStarted r).marks hNew c hContent
      have hNil : q.starts r = [] := by
        by_contra hNe
        rw [hMarks.2.mpr hNe] at hStart
        cases hStart
      refine Started.update (fun p _ => ?_) ?_
      · rw [hAll]
        exact hStarted p
      · rw [hAll, hContent]
        exact Holds.unmarked (hSelf.starts_eq_nil hUnset)
          ((hStarted r).fits c hContent)
          (hMarks.1.trans hNil) hStart
  | @copy r t _ _ hUnset hContent _ hContents hCopy =>
      refine Started.update (hSame hContents) ?_
      rw [hCopy]
      exact Holds.unmarked (hSelf.starts_eq_nil hUnset)
        ((hStarted r).fits _ hContent).copyWithoutStartMarks
        (startIndices_copyWithoutStartMarks t) rfl
  | @merge p t r _ _ hResets hT hR hFresh hContents
      hMerged =>
      refine Started.update (hSame hContents) ?_
      rw [hMerged]
      rw [hT] at hSelf
      refine hSelf.merge ((hStarted p).fits _ hR) hResets ?_
        hFresh.1
      intro hNew
      rw [hNew, contentAt_of_static (Or.inr (Or.inl rfl))]
        at hT
      exact (Option.some.inj hT).symm

end Query

end SizesTags

end MemoryAgent
