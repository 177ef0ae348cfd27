import MemoryAgent.Sizes.Tags.MergedInfos
import MemoryAgent.Sizes.Tags.Actions
import MemoryAgent.Sizes.Tags.Effects

/-
  The tag of an object that several tagged objects refer to:
  the first one shares its tag, the others are merged in.
  The infos depend on the set of these tags only.

  Key definitions include:
    * `TagMemory.shareAndMerge`
    * `SizesTags.combinedState`
    * `SizesTags.IsReferrer`

  Main results:
    * `SizesTags.mergedState_combined`
    * `SizesTags.Combined.mergeAll`
    * `SizesTags.shareAndMerge_order`
-/

------------------------------------------------------------
-- Sequences of Referrers
------------------------------------------------------------

namespace MemoryAgent

namespace SizesTags

open TagInfoArray

namespace TagMemory

/- Merge tags into the tag of an object, one by one. -/
def mergeAll
    (m : TagAddresses) :
    List jlong → jlong → TagMemory →
      Option (jlong × TagMemory)
| [], tag, tags => some (tag, tags)
| referrer :: referrers, tag, tags => do
    let (tag, tags) ← tags.merge m tag referrer
    mergeAll m referrers tag tags

/- The tag that an untagged object gets in this way. -/
def shareAndMerge
    (m : TagAddresses)
    (tags : TagMemory) :
    List jlong → Option (jlong × TagMemory)
| [] => some (0, tags)
| first :: referrers => do
    let (tag, tags) ← tags.share m first
    mergeAll m referrers tag tags

end TagMemory

------------------------------------------------------------
-- Combined States
------------------------------------------------------------

/- What a referrer's tag tells about an index. -/
def Tag.has
    (t : Tag)
    (k : Nat) : Bool :=
  (stateAt t.array.infos k).isSome

def Tag.subtreeFor
    (t : Tag)
    (k : Nat) : Bool :=
  match stateAt t.array.infos k with
  | none => false
  | some s => isInSubtree s

/- The index is missing, or marked and not of a start. -/
def Tag.outsideFor
    (t : Tag)
    (k : Nat) : Bool :=
  match stateAt t.array.infos k with
  | none => true
  | some s => !isStartObject s && isReachableOutside s

def combinedState
    (referrers : List Tag)
    (k : Nat) : Option (BitVec 8) :=
  if referrers.any (fun t => t.has k) = true then
    some (createState false
      (referrers.any (fun t => t.subtreeFor k))
      (referrers.any (fun t => t.outsideFor k)) true)
  else
    none

/- A start tag, or one that was shared before. -/
structure IsReferrer (t : Tag) : Prop where
  nonempty : t.array.infos ≠ []
  increasing : Increasing t.array.infos
  shared :
    t.isStartTag = false →
      ∀ info ∈ t.array.infos, ∃ outside,
        info.state = createState false true outside true

variable {t : Tag}
variable {referrers others : List Tag}
variable {k : Nat}

theorem any_congr_mem
    {α : Type}
    {l l' : List α}
    (hSame : ∀ a, a ∈ l ↔ a ∈ l')
    (p : α → Bool) :
    l.any p = l'.any p := by
  rw [Bool.eq_iff_iff, List.any_eq_true, List.any_eq_true]
  constructor
  · rintro ⟨a, hMem, hP⟩
    exact ⟨a, (hSame a).mp hMem, hP⟩
  · rintro ⟨a, hMem, hP⟩
    exact ⟨a, (hSame a).mpr hMem, hP⟩

theorem combinedState_congr
    (hSame : ∀ t, t ∈ referrers ↔ t ∈ others) :
    combinedState referrers k = combinedState others k := by
  unfold combinedState
  rw [any_congr_mem hSame, any_congr_mem hSame,
    any_congr_mem hSame]

theorem Tag.of_missing
    (hState : stateAt t.array.infos k = none) :
    t.has k = false ∧ t.subtreeFor k = false ∧
      t.outsideFor k = true := by
  unfold has subtreeFor outsideFor
  rw [hState]
  exact ⟨rfl, rfl, rfl⟩

theorem Tag.of_present
    {s : BitVec 8}
    (hState : stateAt t.array.infos k = some s) :
    t.has k = true ∧ t.subtreeFor k = isInSubtree s ∧
      t.outsideFor k =
        (!isStartObject s && isReachableOutside s) := by
  unfold has subtreeFor outsideFor
  rw [hState]
  exact ⟨rfl, rfl, rfl⟩

/- The state that the first referrer shares. -/
theorem stateAt_shared
    (hReferrer : IsReferrer t)
    (hShared : t.isStartTag = false)
    (k : Nat) :
    stateAt t.array.infos k = combinedState [t] k := by
  unfold combinedState
  cases hState : stateAt t.array.infos k with
  | none => simp [Tag.of_missing hState]
  | some s =>
      have hMem :=
        (stateAt_eq_some_iff hReferrer.increasing).mp hState
      rcases hReferrer.shared hShared _ hMem with
        ⟨outside, hEq⟩
      dsimp only at hEq
      rw [hEq] at hState ⊢
      simp [Tag.of_present hState]

theorem stateAt_copyWithoutStartMarks
    (t : Tag)
    (k : Nat) :
    stateAt t.copyWithoutStartMarks.array.infos k =
      combinedState [t] k := by
  have hCopy :
      stateAt t.copyWithoutStartMarks.array.infos k =
        (stateAt t.array.infos k).map
          (updateState
            (createState false false false true)) :=
    stateAt_map
      (fun info =>
        ⟨info.index,
          updateState (createState false false false true)
            info.state⟩)
      (fun _ => rfl) _ (fun _ => rfl) t.array.infos k
  rw [hCopy]
  unfold combinedState
  cases hState : stateAt t.array.infos k with
  | none => simp [Tag.of_missing hState]
  | some s => simp [Tag.of_present hState, updateState]

/-
  An index that is new for the referree was missing in every
  tag before, and is marked as the first info is visited.
-/
theorem mergedState_combined
    (hNe : referrers ≠ [])
    (t : Tag)
    (k : Nat) :
    mergedState true (combinedState referrers k)
        (stateAt t.array.infos k) =
      combinedState (referrers ++ [t]) k := by
  by_cases hHas :
      referrers.any (fun r => r.has k) = true
  · unfold combinedState
    rw [if_pos hHas]
    simp only [List.any_append, List.any_cons, List.any_nil,
      hHas]
    cases hState : stateAt t.array.infos k with
    | none =>
        simp [Tag.of_missing hState, mergedState,
          updateState]
    | some s =>
        simp [Tag.of_present hState, mergedState,
          updateState]
  · have hNone :
        ∀ r ∈ referrers, stateAt r.array.infos k = none := by
      intro r hMem
      by_contra hSome
      apply hHas
      exact List.any_eq_true.mpr
        ⟨r, hMem, Option.isSome_iff_ne_none.mpr hSome⟩
    have hSubtree :
        referrers.any (fun r => r.subtreeFor k) = false := by
      rw [List.any_eq_false]
      intro r hMem
      simp [Tag.of_missing (hNone r hMem)]
    have hOutside :
        referrers.any (fun r => r.outsideFor k) = true := by
      rcases List.exists_mem_of_ne_nil referrers hNe with
        ⟨r, hMem⟩
      exact List.any_eq_true.mpr
        ⟨r, hMem, (Tag.of_missing (hNone r hMem)).2.2⟩
    unfold combinedState
    rw [if_neg hHas]
    simp only [List.any_append, List.any_cons, List.any_nil,
      Bool.eq_false_iff.mpr hHas, hSubtree, hOutside]
    cases hState : stateAt t.array.infos k with
    | none => simp [Tag.of_missing hState, mergedState]
    | some s =>
        simp [Tag.of_present hState, mergedState,
          updateState]

------------------------------------------------------------
-- One More Merge
------------------------------------------------------------

/- The array carries the combined states. -/
structure CombinedInfos
    (referrers : List Tag)
    (infos : List TagInfo) : Prop where
  nonempty : referrers ≠ []
  increasing : Increasing infos
  state : ∀ k, stateAt infos k = combinedState referrers k

theorem CombinedInfos.alreadyVisited
    {array : TagInfoArray}
    (hCombined : CombinedInfos referrers array.infos) :
    array.alreadyVisited = true := by
  unfold TagInfoArray.alreadyVisited
  cases hInfos : array.infos with
  | nil => rfl
  | cons info rest =>
      have hState := hCombined.state info.index
      rw [hInfos, stateAt_cons, if_pos rfl] at hState
      unfold combinedState at hState
      split at hState
      · change isAlreadyVisited info.state = true
        rw [Option.some.inj hState]
        simp
      · cases hState

theorem CombinedInfos.mem_indices_iff
    {infos : List TagInfo}
    (hCombined : CombinedInfos referrers infos)
    (k : Nat) :
    k ∈ indices infos ↔
      ∃ t ∈ referrers, k ∈ indices t.array.infos := by
  rw [TagInfoArray.mem_indices_iff, hCombined.state k]
  unfold combinedState
  rw [ite_ne_right_iff, List.any_eq_true]
  simp only [Tag.has, Option.isSome_iff_ne_none,
    TagInfoArray.mem_indices_iff]
  simp

/- All indices of the tags, each of them once. -/
def allIndices (referrers : List Tag) : Finset Nat :=
  (referrers.flatMap
    (fun t => indices t.array.infos)).toFinset

theorem CombinedInfos.merge
    {array : TagInfoArray}
    (hCombined : CombinedInfos referrers array.infos)
    (hIncreasing : Increasing t.array.infos)
    (hIndices :
      (allIndices (referrers ++ [t])).card ≤ 65535) :
    CombinedInfos (referrers ++ [t])
      (array.merge t.array).infos := by
  have hUnion :
      ((indices array.infos).toFinset ∪
        (indices t.array.infos).toFinset).card ≤ 65535 := by
    apply (Finset.card_le_card ?_).trans hIndices
    intro k hMem
    rw [Finset.mem_union, List.mem_toFinset,
      List.mem_toFinset, hCombined.mem_indices_iff] at hMem
    unfold allIndices
    rw [List.mem_toFinset, List.mem_flatMap]
    rcases hMem with ⟨r, hR, hK⟩ | hK
    · exact ⟨r, List.mem_append_left _ hR, hK⟩
    · exact ⟨t, List.mem_append_right _
        (List.mem_singleton_self t), hK⟩
  rw [merge_infos hCombined.increasing hIncreasing hUnion,
    hCombined.alreadyVisited]
  refine ⟨by simp, mergeInfos_increasing
    hCombined.increasing hIncreasing, ?_⟩
  intro k
  rw [stateAt_mergeInfos hCombined.increasing hIncreasing,
    hCombined.state k]
  exact mergedState_combined hCombined.nonempty t k

------------------------------------------------------------
-- The Memory of the Tags
------------------------------------------------------------

/- A tag in memory that some object carries. -/
structure Carries
    (m : TagAddresses)
    (tags : TagMemory)
    (a : jlong)
    (t : Tag) : Prop where
  not_reserved : a ∉ m.reserved
  get : tags.store.get a = some t

variable {m : TagAddresses}
variable {tags tags' : TagMemory}
variable {a b : jlong}

theorem Carries.dereference
    (hCarries : Carries m tags a t) :
    tags.dereference m a = some t := by
  have hNot := hCarries.not_reserved
  rw [mem_reserved_iff, not_or] at hNot
  unfold TagMemory.dereference
  rw [if_neg hNot.2, if_neg hNot.1, hCarries.get]

theorem Carries.inUse
    (hCarries : Carries m tags a t) :
    tags.InUse m a :=
  TagMemory.InUse.of_get hCarries.get

theorem Carries.modify
    (hCarries : Carries m tags a t)
    (f : Tag → Tag) :
    ∃ tags', tags.modify m a f = some tags' ∧
      Carries m tags' a (f t) := by
  have hNot := hCarries.not_reserved
  rw [mem_reserved_iff, not_or] at hNot
  have hSome :
      tags.modify m a f =
        some { tags with store := tags.store.set a (f t) } := by
    unfold TagMemory.modify
    rw [if_neg hNot.2, hCarries.get]
    rfl
  refine ⟨_, hSome, hCarries.not_reserved, ?_⟩
  rw [TagMemory.modify_get hSome, if_pos rfl, hCarries.get]
  rfl

theorem Carries.new
    (tags : TagMemory)
    (t : Tag) :
    Carries m (tags.new m t).2 (tags.new m t).1 t := by
  refine ⟨TagMemory.new_not_reserved, ?_⟩
  rw [TagMemory.new_get, if_pos rfl]

theorem Carries.of_get
    (hCarries : Carries m tags a t)
    (hSame : tags'.store.get a = tags.store.get a) :
    Carries m tags' a t :=
  ⟨hCarries.not_reserved, hSame.trans hCarries.get⟩

theorem Carries.of_new
    (hCarries : Carries m tags a t)
    (new : Tag) :
    Carries m (tags.new m new).2 a t := by
  apply hCarries.of_get
  rw [TagMemory.new_get, if_neg hCarries.inUse.ne_new]

/- A carried tag goes on with a smaller count, or is gone. -/
theorem Carries.unref
    (hCarries : Carries m tags a t) :
    ∃ tags', tags.unref m a = some tags' ∧
      (t.decrementRefCount.refCount ≠ 0 →
        Carries m tags' a t.decrementRefCount) := by
  have hNot := hCarries.not_reserved
  rw [mem_reserved_iff, not_or] at hNot
  unfold TagMemory.unref
  rw [if_neg hNot.2, hCarries.get, Option.bind_some]
  unfold TagMemory.release
  by_cases hZero : t.decrementRefCount.refCount = 0
  · rw [if_pos hZero]
    exact ⟨_, rfl, fun hNe => absurd hZero hNe⟩
  · rcases hCarries.modify
        (fun _ => t.decrementRefCount) with
      ⟨tags', hModify, hNext⟩
    rw [if_neg hZero]
    exact ⟨tags', hModify, fun _ => hNext⟩

/-
  While tags are merged into the tag of an object: the tags
  of the referrers stay in memory.
-/
structure Combined
    (m : TagAddresses)
    (tagOf : jlong → Tag)
    (addresses : List jlong)
    (seen : List jlong)
    (tag : jlong)
    (tags : TagMemory) : Prop where
  kept :
    ∀ a ∈ addresses, ∃ t,
      Carries m tags a t ∧ t.array = (tagOf a).array
  current :
    ∃ t, Carries m tags tag t ∧
      CombinedInfos (seen.map tagOf) t.array.infos ∧
      (tag ∈ addresses → t.decrementRefCount.refCount ≠ 0)

variable {tagOf : jlong → Tag}
variable {addresses seen : List jlong}

theorem Combined.merge
    {referrer : jlong}
    (hCombined :
      Combined m tagOf addresses seen b tags)
    (hMem : referrer ∈ addresses)
    (hIncreasing :
      Increasing (tagOf referrer).array.infos)
    (hIndices :
      (allIndices ((seen ++ [referrer]).map tagOf)).card ≤
        65535) :
    ∃ b' tags', tags.merge m b referrer = some (b', tags') ∧
      Combined m tagOf addresses (seen ++ [referrer]) b'
        tags' := by
  rcases hCombined.current with
    ⟨t, hCarries, hInfos, hCount⟩
  rcases hCombined.kept referrer hMem with
    ⟨r, hReferrer, hArray⟩
  let merged := Tag.ofMerge t r
  rcases (hCarries.of_new merged).unref with
    ⟨tags', hUnref, hDecremented⟩
  have hMerge :
      tags.merge m b referrer =
        some ((tags.new m merged).1, tags') := by
    unfold TagMemory.merge
    rw [hCarries.dereference, hReferrer.dereference]
    change
      ((tags.new m merged).2.unref m b).bind _ = _
    rw [hUnref]
    rfl
  have hNeNew :
      ∀ {a t}, Carries m tags a t →
        a ≠ (tags.new m merged).1 :=
    fun hA => hA.inUse.ne_new
  refine ⟨_, tags', hMerge, ?_, ?_⟩
  · intro a hA
    rcases hCombined.kept a hA with ⟨u, hU, hSame⟩
    by_cases hEq : a = b
    · rw [hEq] at hA hU
      have hT : u = t :=
        Option.some.inj (hU.get.symm.trans hCarries.get)
      rw [hEq]
      refine ⟨t.decrementRefCount,
        hDecremented (hCount hA), ?_⟩
      rw [Tag.decrementRefCount_array, ← hT, hSame, hEq]
    · exact ⟨u, (hU.of_new merged).of_get
        (TagMemory.unref_get_of_ne hUnref hEq), hSame⟩
  · refine ⟨merged, ?_, ?_, ?_⟩
    · exact (Carries.new tags merged).of_get
        (TagMemory.unref_get_of_ne hUnref
          (hNeNew hCarries).symm)
    · rw [List.map_append]
      change
        CombinedInfos _ (t.array.merge r.array).infos
      rw [hArray]
      apply hInfos.merge hIncreasing
      rw [List.map_append] at hIndices
      exact hIndices
    · intro hNew
      rcases hCombined.kept _ hNew with ⟨u, hU, _⟩
      exact absurd rfl (hNeNew hU)

theorem allIndices_card_le
    {referrers others : List Tag}
    (hSubset : referrers ⊆ others)
    (hCard : (allIndices others).card ≤ 65535) :
    (allIndices referrers).card ≤ 65535 := by
  apply (Finset.card_le_card ?_).trans hCard
  intro k hMem
  unfold allIndices at *
  rw [List.mem_toFinset, List.mem_flatMap] at *
  rcases hMem with ⟨t, hT, hK⟩
  exact ⟨t, hSubset hT, hK⟩

theorem Combined.mergeAll
    (rest : List jlong)
    (hCombined :
      Combined m tagOf addresses seen b tags)
    (hRest : ∀ a ∈ rest, a ∈ addresses)
    (hIncreasing :
      ∀ a ∈ addresses, Increasing (tagOf a).array.infos)
    (hIndices :
      (allIndices ((seen ++ rest).map tagOf)).card ≤
        65535) :
    ∃ b' tags',
      TagMemory.mergeAll m rest b tags = some (b', tags') ∧
        Combined m tagOf addresses (seen ++ rest) b'
          tags' := by
  induction rest generalizing seen b tags with
  | nil =>
      refine ⟨b, tags, rfl, ?_⟩
      rw [List.append_nil]
      exact hCombined
  | cons referrer rest ih =>
      have hMem := hRest referrer List.mem_cons_self
      have hSplit :
          seen ++ referrer :: rest =
            (seen ++ [referrer]) ++ rest := by
        simp
      rw [hSplit] at hIndices
      have hFirst :
          (allIndices
            ((seen ++ [referrer]).map tagOf)).card ≤
              65535 := by
        apply allIndices_card_le ?_ hIndices
        exact List.map_subset tagOf
          (List.subset_append_left _ rest)
      rcases hCombined.merge hMem (hIncreasing _ hMem)
          hFirst with ⟨b', tags', hMerge, hNext⟩
      rcases ih hNext
          (fun a hA => hRest a (List.mem_cons_of_mem _ hA))
          hIndices with ⟨b'', tags'', hAll, hLast⟩
      refine ⟨b'', tags'', ?_, ?_⟩
      · rw [TagMemory.mergeAll, hMerge]
        exact hAll
      · rw [hSplit]
        exact hLast

/- The first referrer shares its tag. -/
theorem Combined.share
    {first : jlong}
    (hMem : first ∈ addresses)
    (hCarries : ∀ a ∈ addresses, Carries m tags a (tagOf a))
    (hReferrer : IsReferrer (tagOf first))
    (hCount :
      0 < (tagOf first).refCount ∧
        (tagOf first).refCount < refCountSize) :
    ∃ b tags', tags.share m first = some (b, tags') ∧
      Combined m tagOf addresses [first] b tags' := by
  have hFirst := hCarries first hMem
  by_cases hStart : (tagOf first).isStartTag = true
  · let copy := (tagOf first).copyWithoutStartMarks
    have hShare :
        tags.share m first = some (tags.new m copy) := by
      unfold TagMemory.share
      rw [hFirst.dereference]
      exact if_pos hStart
    refine ⟨_, _, hShare, ?_, copy,
      Carries.new tags copy, ⟨by simp, ?_, ?_⟩, ?_⟩
    · intro a hA
      exact ⟨tagOf a, (hCarries a hA).of_new copy, rfl⟩
    · exact List.pairwise_map.mpr hReferrer.increasing
    · exact stateAt_copyWithoutStartMarks (tagOf first)
    · intro hNew
      exact absurd rfl
        ((hCarries _ hNew).inUse.ne_new (t := copy))
  · have hShared := Bool.eq_false_iff.mpr hStart
    rcases hFirst.modify Tag.incrementRefCount with
      ⟨tags', hModify, hNext⟩
    have hShare :
        tags.share m first = some (first, tags') := by
      unfold TagMemory.share TagMemory.ref
      simp [hFirst.dereference, hShared, hModify]
    refine ⟨_, _, hShare, ?_,
      (tagOf first).incrementRefCount, hNext,
      ⟨by simp, ?_, ?_⟩, ?_⟩
    · intro a hA
      by_cases hEq : a = first
      · rw [hEq]
        exact ⟨_, hNext, rfl⟩
      · refine ⟨tagOf a, (hCarries a hA).of_get ?_, rfl⟩
        rw [TagMemory.modify_get hModify, if_neg hEq]
    · exact hReferrer.increasing
    · intro k
      exact stateAt_shared hReferrer hShared k
    · intro _
      unfold Tag.decrementRefCount Tag.incrementRefCount
      dsimp only
      unfold refCountSize at *
      omega

------------------------------------------------------------
-- Order Independence
------------------------------------------------------------

/- The tags at the addresses are those of referrers. -/
structure AreReferrers
    (m : TagAddresses)
    (tags : TagMemory)
    (tagOf : jlong → Tag)
    (addresses : List jlong) : Prop where
  carries : ∀ a ∈ addresses, Carries m tags a (tagOf a)
  counted :
    ∀ a ∈ addresses,
      0 < (tagOf a).refCount ∧
        (tagOf a).refCount < refCountSize
  referrer : ∀ a ∈ addresses, IsReferrer (tagOf a)
  indices :
    (allIndices (addresses.map tagOf)).card ≤ 65535

theorem AreReferrers.congr
    {others : List jlong}
    (hReferrers : AreReferrers m tags tagOf addresses)
    (hSame : ∀ a, a ∈ others ↔ a ∈ addresses) :
    AreReferrers m tags tagOf others := by
  refine ⟨fun a hA => hReferrers.carries a ((hSame a).mp hA),
    fun a hA => hReferrers.counted a ((hSame a).mp hA),
    fun a hA => hReferrers.referrer a ((hSame a).mp hA),
    ?_⟩
  apply allIndices_card_le ?_ hReferrers.indices
  exact List.map_subset tagOf (fun a hA => (hSame a).mp hA)

theorem AreReferrers.shareAndMerge
    (hReferrers : AreReferrers m tags tagOf addresses)
    (hNe : addresses ≠ []) :
    ∃ b tags' infos,
      tags.shareAndMerge m addresses = some (b, tags') ∧
        tags'.infosAt m b = some infos ∧
          CombinedInfos (addresses.map tagOf) infos := by
  cases addresses with
  | nil => exact absurd rfl hNe
  | cons first rest =>
      have hMem : first ∈ first :: rest :=
        List.mem_cons_self
      rcases Combined.share hMem hReferrers.carries
          (hReferrers.referrer first hMem)
          (hReferrers.counted first hMem) with
        ⟨b, tags', hShare, hCombined⟩
      rcases hCombined.mergeAll rest
          (fun a hA => List.mem_cons_of_mem first hA)
          (fun a hA => (hReferrers.referrer a hA).increasing)
          hReferrers.indices with
        ⟨b', tags'', hAll, hLast⟩
      rcases hLast.current with ⟨t, hCarries, hInfos, _⟩
      refine ⟨b', tags'', t.array.infos, ?_, ?_, hInfos⟩
      · rw [TagMemory.shareAndMerge, hShare]
        exact hAll
      · unfold TagMemory.infosAt
        rw [hCarries.dereference]
        rfl

theorem Tag.outsideFor_iff
    (hIncreasing : Increasing t.array.infos) :
    t.outsideFor k = true ↔
      k ∉ indices t.array.infos ∨
        ∃ state, ⟨k, state⟩ ∈ t.array.infos ∧
          isStartObject state = false ∧
            isReachableOutside state = true := by
  rw [TagInfoArray.mem_indices_iff, not_not]
  cases hState : stateAt t.array.infos k with
  | none =>
      rw [(Tag.of_missing hState).2.2]
      exact iff_of_true rfl (Or.inl rfl)
  | some s =>
      rw [(Tag.of_present hState).2.2, Bool.and_eq_true,
        Bool.not_eq_true']
      constructor
      · intro hBoth
        exact Or.inr ⟨s,
          (stateAt_eq_some_iff hIncreasing).mp hState,
          hBoth⟩
      · rintro (hNone | ⟨state, hMem, hBoth⟩)
        · cases hNone
        · have hSame :=
            (stateAt_eq_some_iff hIncreasing).mpr hMem
          rw [hState] at hSame
          rw [Option.some.inj hSame]
          exact hBoth

theorem CombinedInfos.outside_iff
    {infos : List TagInfo}
    {info : TagInfo}
    (hCombined : CombinedInfos referrers infos)
    (hIncreasing :
      ∀ t ∈ referrers, Increasing t.array.infos)
    (hMem : info ∈ infos) :
    isReachableOutside info.state = true ↔
      ∃ t ∈ referrers,
        info.index ∉ indices t.array.infos ∨
          ∃ state,
            ⟨info.index, state⟩ ∈ t.array.infos ∧
              isStartObject state = false ∧
                isReachableOutside state = true := by
  have hState :=
    (stateAt_eq_some_iff hCombined.increasing).mpr hMem
  rw [hCombined.state] at hState
  unfold combinedState at hState
  split at hState
  · rw [← Option.some.inj hState,
      isReachableOutside_createState, List.any_eq_true]
    constructor
    · rintro ⟨t, hT, hOutside⟩
      exact ⟨t, hT,
        (Tag.outsideFor_iff (hIncreasing t hT)).mp hOutside⟩
    · rintro ⟨t, hT, hOutside⟩
      exact ⟨t, hT,
        (Tag.outsideFor_iff (hIncreasing t hT)).mpr
          hOutside⟩
  · cases hState

/-
  The infos of an object with several referrers: there is
  one for every index of a referrer, marked if a referrer
  lacks the index or has a marked one that is no start.
  Another order or repetition of the referrers gives the
  same infos.
-/
theorem shareAndMerge_order
    (m : TagAddresses)
    (tags : TagMemory)
    (tagOf : jlong → Tag)
    (referrers : List jlong)
    (hNe : referrers ≠ [])
    (hReferrers : AreReferrers m tags tagOf referrers) :
    ∃ infos,
      (∀ others : List jlong,
        (∀ a, a ∈ others ↔ a ∈ referrers) →
          ∃ b tags',
            tags.shareAndMerge m others = some (b, tags') ∧
              tags'.infosAt m b = some infos) ∧
      Increasing infos ∧
      (∀ k, k ∈ indices infos ↔
        ∃ a ∈ referrers,
          k ∈ indices (tagOf a).array.infos) ∧
      ∀ info ∈ infos,
        (isReachableOutside info.state = true ↔
          ∃ a ∈ referrers,
            info.index ∉ indices (tagOf a).array.infos ∨
              ∃ state,
                ⟨info.index, state⟩ ∈
                    (tagOf a).array.infos ∧
                  isStartObject state = false ∧
                    isReachableOutside state = true) := by
  rcases hReferrers.shareAndMerge hNe with
    ⟨_, _, infos, _, _, hCombined⟩
  refine ⟨infos, ?_, hCombined.increasing, ?_, ?_⟩
  · intro others hSame
    have hOthersNe : others ≠ [] := by
      intro hNil
      rcases List.exists_mem_of_ne_nil referrers hNe with
        ⟨a, hA⟩
      rw [← hSame, hNil] at hA
      exact absurd hA List.not_mem_nil
    rcases (hReferrers.congr hSame).shareAndMerge
        hOthersNe with
      ⟨b, tags', infos', hEq, hInfos, hCombined'⟩
    have hInfosEq : infos' = infos := by
      apply eq_of_stateAt hCombined'.increasing
        hCombined.increasing
      intro k
      rw [hCombined'.state, hCombined.state]
      apply combinedState_congr
      intro t
      simp only [List.mem_map, hSame]
    rw [hInfosEq] at hInfos
    exact ⟨b, tags', hEq, hInfos⟩
  · intro k
    rw [hCombined.mem_indices_iff]
    simp only [List.mem_map, exists_exists_and_eq_and]
  · intro info hMem
    have hIncreasing :
        ∀ t ∈ referrers.map tagOf,
          Increasing t.array.infos := by
      intro t hT
      rcases List.mem_map.mp hT with ⟨a, hA, hEq⟩
      rw [← hEq]
      exact (hReferrers.referrer a hA).increasing
    rw [hCombined.outside_iff hIncreasing hMem]
    simp only [List.mem_map, exists_exists_and_eq_and]

/- The start tags of two objects in memory. -/
def startTag (index : Nat) : Tag :=
  .ofInfo index (createState true true false false)

def twoStartTags : TagMemory :=
  ((TagMemory.initial.new lowAddresses (startTag 0)).2.new
    lowAddresses (startTag 1)).2

/- An object that both of them refer to. -/
theorem shareAndMerge_order_pair :
    ∃ infos,
      (∀ others : List jlong,
        (∀ a, a ∈ others ↔ a ∈ [4, 5]) →
          ∃ b tags',
            twoStartTags.shareAndMerge lowAddresses others =
                some (b, tags') ∧
              tags'.infosAt lowAddresses b = some infos) ∧
      0 ∈ indices infos := by
  let tagOf : jlong → Tag :=
    fun a => startTag (a - 4).toNat
  have hReferrers :
      AreReferrers lowAddresses twoStartTags tagOf
        [4, 5] := by
    refine ⟨?_, by decide, ?_, by decide +kernel⟩
    · intro a hA
      rcases List.mem_cons.mp hA with hEq | hTail
      · rw [hEq]
        exact ⟨by decide, by decide +kernel⟩
      · rw [List.mem_singleton.mp hTail]
        exact ⟨by decide, by decide +kernel⟩
    · intro a _
      exact ⟨List.cons_ne_nil _ _,
        List.pairwise_singleton _ _, fun h => nomatch h⟩
  rcases shareAndMerge_order lowAddresses twoStartTags tagOf
      [4, 5] (by decide) hReferrers with
    ⟨infos, hOrder, _, hIndices, _⟩
  exact ⟨infos, hOrder,
    (hIndices 0).mpr ⟨4, by decide, by decide⟩⟩

end SizesTags

end MemoryAgent
