import MemoryAgent.Sizes.Tags.ClassRuns
import MemoryAgent.Sizes.Tags.ObjectRuns

/-
  Positions of a list and the 16-bit indices of the infos.
  Up to 65535 positions, each has an index and a start info
  of its own, and no array is too small for its infos; from
  65536 positions on, some position has none.

  Key definitions include:
    * `SizesTags.WellIndexed`
    * `SizesTags.ObjectLaw`
    * `SizesTags.ClassLaw`

  Main results:
    * `SizesTags.ObjectPhase.wellIndexed`
    * `SizesTags.ClassPhase.wellIndexed`
    * `SizesTags.indexLaw_iff`
-/

------------------------------------------------------------
-- Indices
------------------------------------------------------------

namespace MemoryAgent

namespace SizesTags

open RecordStore TagMemory TagInfoArray

/- Infos that are increasing, with indices of positions. -/
structure Indexed
    (count : Nat)
    (infos : List TagInfo) : Prop where
  increasing : Increasing infos
  index_lt : ∀ k ∈ indices infos, k < count

theorem Indexed.nil
    {count : Nat} :
    Indexed count [] :=
  ⟨List.Pairwise.nil,
    fun _ hMem => absurd hMem List.not_mem_nil⟩

section Carried

variable {O : Type}

/-
  The arrays of all carried tags: increasing, with indices
  inside of the result, and with an allocated size that is
  the number of infos when two of them are merged.
-/
structure WellIndexed
    (m : TagAddresses)
    (count : Nat)
    (tag : O → jlong)
    (tags : TagMemory) : Prop where
  increasing : ∀ o, Increasing (carriedInfos m tag tags o)
  index_lt :
    ∀ o, ∀ info ∈ carriedInfos m tag tags o,
      info.index < count
  merge_size :
    ∀ o p (t r : Tag),
      tags.dereference m (tag o) = some t →
      tags.dereference m (tag p) = some r →
      getNewArraySize t.array r.array =
        (mergeInfos t.array.alreadyVisited t.array.infos
          r.array.infos).length

variable {m : TagAddresses}
variable {count : Nat}
variable {tag : O → jlong}
variable {tags : TagMemory}

theorem Indexed.merge_size
    {referree referrer : TagInfoArray}
    (hCount : count ≤ 65535)
    (hReferree : Indexed count referree.infos)
    (hReferrer : Indexed count referrer.infos) :
    getNewArraySize referree referrer =
      (mergeInfos referree.alreadyVisited referree.infos
        referrer.infos).length := by
  have hCard :=
    card_indices_le hReferree.index_lt hReferrer.index_lt
  rw [← getNewArraySize_eq]
  unfold getSize
  rw [TagInfoArray.merge_infos hReferree.increasing
    hReferrer.increasing (hCard.trans hCount)]

theorem wellIndexed
    (hCount : count ≤ 65535)
    (hAll : ∀ o, Indexed count (carriedInfos m tag tags o)) :
    WellIndexed m count tag tags := by
  have hInfos :
      ∀ o (t : Tag), tags.dereference m (tag o) = some t →
        Indexed count t.array.infos := by
    intro o t hT
    have hO := hAll o
    rw [carriedInfos_eq (exists_contentAt hT)] at hO
    exact hO
  refine ⟨fun o => (hAll o).increasing, ?_, ?_⟩
  · intro o info hMem
    exact (hAll o).index_lt info.index
      (List.mem_map_of_mem hMem)
  · intro o p t r hT hR
    exact (hInfos o t hT).merge_size hCount (hInfos p r hR)

------------------------------------------------------------
-- Phases
------------------------------------------------------------

variable {q : Query O}
variable {resets : Bool}
variable {o : O}
variable {i : Nat}

theorem Query.Holds.indexed
    (hHolds :
      q.Holds m resets o (tag o)
        (tags.contentAt m (tag o))) :
    Indexed q.count (carriedInfos m tag tags o) := by
  cases hContent : tags.contentAt m (tag o) with
  | none =>
      rw [carriedInfos_of_none hContent]
      exact Indexed.nil
  | some c =>
      rw [carriedInfos_eq hContent]
      have hFits := hHolds.fits c hContent
      exact ⟨hFits.increasing, hFits.index_lt⟩

theorem exists_content_of_hasStart
    (hStart : HasStart m tag tags o i) :
    ∃ c, tags.contentAt m (tag o) = some c := by
  rcases hStart with ⟨info, hMem, _⟩
  cases hContent : tags.contentAt m (tag o) with
  | some c => exact ⟨c, rfl⟩
  | none =>
      rw [carriedInfos_of_none hContent] at hMem
      exact absurd hMem List.not_mem_nil

/- An object has start infos of its own positions only. -/
theorem Query.Holds.mem_starts
    (hHolds :
      q.Holds m resets o (tag o)
        (tags.contentAt m (tag o)))
    (hStart : HasStart m tag tags o i) :
    i ∈ q.starts o := by
  rcases exists_content_of_hasStart hStart with
    ⟨c, hContent⟩
  rw [hasStart_iff hContent] at hStart
  by_cases hNew : tag o = m.tagWithNewInfo
  · rw [hNew, contentAt_of_static (Or.inr (Or.inl rfl))]
      at hContent
    rw [← Option.some.inj hContent] at hStart
    exact absurd hStart List.not_mem_nil
  · rw [(hHolds.marks hNew c hContent).1] at hStart
    exact hStart

theorem Query.Holds.indexed_starts
    (hHolds :
      q.Holds m resets o (tag o)
        (tags.contentAt m (tag o))) :
    Indexed q.count (carriedInfos m tag tags o) ∧
      ∀ i, HasStart m tag tags o i → i ∈ q.starts o :=
  ⟨hHolds.indexed, fun _ hStart => hHolds.mem_starts hStart⟩

theorem indexed_starts_of_nil
    (q : Query O)
    (hNone : carriedInfos m tag tags o = []) :
    Indexed q.count (carriedInfos m tag tags o) ∧
      ∀ i, HasStart m tag tags o i → i ∈ q.starts o := by
  constructor
  · rw [hNone]
    exact Indexed.nil
  · rintro i ⟨info, hMem, _⟩
    rw [hNone] at hMem
    exact absurd hMem List.not_mem_nil

variable [DecidableEq O]

theorem Query.Creating.indexed
    {todo : List (O × Nat)}
    (hCreating : q.Creating m todo tag tags)
    (o : O) :
    Indexed q.count (carriedInfos m tag tags o) ∧
      ∀ i, HasStart m tag tags o i → i ∈ q.starts o := by
  rcases hCreating o with
    ⟨_, hHolds⟩ | ⟨_, l, hStarts, hCreated⟩
  · exact hHolds.indexed_starts
  rcases hCreated with ⟨_, hUnset⟩ | ⟨_, _, hContent⟩
  · apply indexed_starts_of_nil q
    rcases hUnset with hZero | hNew
    · exact carriedInfos_zero hZero
    · have hContent :
          tags.contentAt m (tag o) =
            some Content.empty := by
        rw [hNew]
        exact contentAt_of_static (Or.inr (Or.inl rfl))
      exact carriedInfos_eq hContent
  · have hSubset : ∀ i ∈ l, i ∈ q.starts o := by
      intro i hMem
      rw [hStarts]
      exact List.mem_append_left _ hMem
    have hSorted : l.Pairwise (· < ·) := by
      have hAll := q.starts_increasing o
      rw [hStarts] at hAll
      exact (List.pairwise_append.mp hAll).1
    constructor
    · rw [carriedInfos_eq hContent]
      refine ⟨increasing_startInfo hSorted, ?_⟩
      intro k hMem
      rw [indices_startInfo] at hMem
      exact q.starts_lt o k (hSubset k hMem)
    · intro i hStart
      rw [hasStart_iff hContent, startIndices_startInfo]
        at hStart
      exact hSubset i hStart

variable {work : Work O}
variable {rest : List (Stage O)}

theorem ObjectPhase.indexed
    {objects : List O}
    (hPhase : ObjectPhase q m objects work rest tag tags)
    (o : O) :
    Indexed q.count (carriedInfos m tag tags o) ∧
      ∀ i, HasStart m tag tags o i → i ∈ q.starts o := by
  cases hPhase with
  | create hCreating => exact hCreating.indexed o
  | search hStarted => exact (hStarted o).indexed_starts
  | collected hStarted => exact (hStarted o).indexed_starts
  | retag hCreating => exact hCreating.indexed o
  | visit hStarted => exact (hStarted o).indexed_starts
  | walk hStarted => exact (hStarted o).indexed_starts
  | sum hStarted => exact (hStarted o).indexed_starts

variable [Fintype O]
variable {h : Heap O}
variable {ids : O → List Nat}
variable {last : Iteration}

omit [Fintype O] in
theorem ClassPhase.indexed
    (hPhase : ClassPhase q m ids last work rest tag tags)
    (o : O) :
    Indexed q.count (carriedInfos m tag tags o) ∧
      ∀ i, HasStart m tag tags o i → i ∈ q.starts o := by
  cases hPhase with
  | tagClasses hTagging =>
      apply indexed_starts_of_nil q
      cases hContent : tags.contentAt m (tag o) with
      | some c =>
          rw [carriedInfos_eq hContent,
            hTagging.empty o c hContent]
          rfl
      | none => exact carriedInfos_of_none hContent
  | instances _ hInstances =>
      rcases hInstances o with ⟨_, _, hZero⟩ | hAll
      · exact indexed_starts_of_nil q
          (carriedInfos_zero hZero)
      · exact hAll.indexed_starts
  | search _ hStarted => exact (hStarted o).indexed_starts
  | collected _ hStarted => exact (hStarted o).indexed_starts
  | retag _ hRetagging => exact (hRetagging o).indexed_starts
  | visit hStarted => exact (hStarted o).indexed_starts
  | walk hStarted => exact (hStarted o).indexed_starts
  | sum hStarted => exact (hStarted o).indexed_starts

/-
  The instances are not tagged yet, or the tag of this one
  was reset and will be created again.
-/
def AwaitsTag
    (m : TagAddresses)
    (work : Work O)
    (rest : List (Stage O))
    (tag : O → jlong)
    (o : O) : Prop :=
  .iterate .tagObjectOfTaggedClass ∈ rest ∨
    (∃ todo, work = .iterate .tagObjectOfTaggedClass todo ∧
      o ∈ todo) ∨
    (tag o = m.tagWithNewInfo ∧
      (.iterate .retagStartObjects ∈ rest ∨
        ∃ todo, work = .iterate .retagStartObjects todo ∧
          o ∈ todo))

/- No step drops a start info of an instance for good. -/
theorem ClassPhase.hasStart
    (hOwned : Owned m tag tags)
    (hPhase : ClassPhase q m ids last work rest tag tags)
    (hMem : i ∈ q.starts o) :
    AwaitsTag m work rest tag o ∨
      HasStart m tag tags o i := by
  have hReset :
      q.Holds m true o (tag o)
          (tags.contentAt m (tag o)) →
        .iterate .retagStartObjects ∈ rest →
          AwaitsTag m work rest tag o ∨
            HasStart m tag tags o i := by
    intro hHolds hRetag
    by_cases hNew : tag o = m.tagWithNewInfo
    · exact Or.inl (Or.inr (Or.inr ⟨hNew, Or.inl hRetag⟩))
    · exact Or.inr (hHolds.hasStart hOwned hMem hNew)
  cases hPhase with
  | tagClasses _ => exact Or.inl (Or.inl List.mem_cons_self)
  | @instances todo _ _ _ hInstances =>
      rcases hInstances o with ⟨hTodo, _, _⟩ | hHolds
      · exact Or.inl (Or.inr (Or.inl ⟨todo, rfl, hTodo⟩))
      · exact Or.inr (hHolds.hasStart_of_false hOwned hMem)
  | search _ hStarted =>
      exact hReset (hStarted o)
        (List.mem_cons_of_mem _ List.mem_cons_self)
  | collected _ hStarted =>
      exact hReset (hStarted o) List.mem_cons_self
  | @retag todo _ _ _ hRetagging =>
      by_cases hNew : tag o = m.tagWithNewInfo
      · by_cases hTodo : o ∈ todo
        · exact Or.inl (Or.inr (Or.inr
            ⟨hNew, Or.inr ⟨todo, rfl, hTodo⟩⟩))
        · have hHolds := hRetagging o
          rw [decide_eq_false hTodo] at hHolds
          exact Or.inr
            (hHolds.hasStart_of_false hOwned hMem)
      · exact Or.inr
          ((hRetagging o).hasStart hOwned hMem hNew)
  | visit hStarted =>
      exact Or.inr (hStarted.hasStart hOwned hMem)
  | walk hStarted =>
      exact Or.inr (hStarted.hasStart hOwned hMem)
  | sum hStarted =>
      exact Or.inr (hStarted.hasStart hOwned hMem)

end Carried

------------------------------------------------------------
-- Laws
------------------------------------------------------------

/-
  In each state of a run for `n` objects all indices are in
  range, and an object has start infos with its positions as
  indices, and with no others.
-/
def ObjectLaw (n : Nat) : Prop :=
  ∀ (O : Type) [Fintype O] [DecidableEq O]
    (m : TagAddresses) (h : Heap O) (objects : List O)
    (s : State O),
    Fintype.card O < refCountSize →
    objects.length = n →
    Uninterrupted m h (.estimateRetainedSize objects) s →
      ∃ tags work rest collected,
        s.data.user = some tags ∧
        s.point = .running work rest collected ∧
        WellIndexed m n s.data.tag tags ∧
        ∀ (i : Nat) (o : O),
          (objects[i]? = some o →
            AwaitsStart m objects work rest s.data.tag o i ∨
              HasStart m s.data.tag tags o i) ∧
          (HasStart m s.data.tag tags o i →
            objects[i]? = some o)

/-
  The same for `n` classes.  The instances of the class at a
  position have start infos with this index, unless they are
  tagged class objects themselves.
-/
def ClassLaw (n : Nat) : Prop :=
  ∀ (O : Type) [Fintype O] [DecidableEq O]
    (m : TagAddresses) (h : Heap O) (found : O → List O)
    (classes : List O) (s : State O),
    Fintype.card O < refCountSize →
    (∀ c, (found c).Nodup) →
    classes.length = n →
    Uninterrupted m h
      (.getRetainedSizeByClasses
        (taggedClasses found classes)) s →
      ∃ tags work rest collected,
        s.data.user = some tags ∧
        s.point = .running work rest collected ∧
        WellIndexed m n s.data.tag tags ∧
        ∀ (i : Nat) (o : O),
          ((∃ c, classes[i]? = some c ∧
              h.classOf o ∈ found c) →
            (∀ c ∈ classes, o ∉ found c) →
              AwaitsTag m work rest s.data.tag o ∨
                HasStart m s.data.tag tags o i) ∧
          (HasStart m s.data.tag tags o i →
            ∃ c, classes[i]? = some c ∧
              h.classOf o ∈ found c)

theorem objectLaw_of_le
    {n : Nat}
    (hLe : n ≤ 65535) :
    ObjectLaw n := by
  intro O _ _ m h objects s hCard hLength hRun
  subst hLength
  let q := Query.ofObjects objects hLe
  have hPhases :
      Phases m h (.estimateRetainedSize objects)
        (ObjectPhase q m objects) :=
    objectPhases (Query.ofObjects_apart hLe)
      (fun _ => rfl) m h
  rcases hRun.phase hPhases hCard with
    ⟨tags, _, ⟨hUser, hOwned, _⟩, work, rest, collected,
      hPoint, hPhase⟩
  refine ⟨tags, work, rest, collected, hUser, hPoint,
    wellIndexed hLe (fun o => (hPhase.indexed o).1), ?_⟩
  intro i o
  constructor
  · intro hAt
    exact hPhase.hasStart hOwned
      (mem_indicesIn_zipIdx.mpr hAt)
  · intro hStart
    exact mem_indicesIn_zipIdx.mp
      ((hPhase.indexed o).2 i hStart)

theorem classLaw_of_le
    {n : Nat}
    (hLe : n ≤ 65535) :
    ClassLaw n := by
  intro O _ _ m h found classes s hCard hFound hLength hRun
  subst hLength
  let q := Query.ofClasses h found classes hFound hLe
  let ids := classIds found classes
  have hBound : ∀ c, ∀ i ∈ ids c, i < querySize :=
    fun c i hMem =>
      (classIds_lt hMem).trans (Nat.lt_succ_of_le hLe)
  have hPhases :
      Phases m h
        (.getRetainedSizeByClasses
          (taggedClasses found classes))
        (ClassPhase q m ids .visitObject) :=
    classPhases rfl rfl (fun _ => rfl) hBound (fun _ => rfl)
      reads_visitObject
  rcases hRun.phase hPhases hCard with
    ⟨tags, _, ⟨hUser, hOwned, _⟩, work, rest, collected,
      hPoint, hPhase⟩
  have hStarts :
      ∀ o, q.starts o =
        if ids o = [] then ids (h.classOf o) else [] :=
    fun _ => rfl
  refine ⟨tags, work, rest, collected, hUser, hPoint,
    wellIndexed hLe (fun o => (hPhase.indexed o).1), ?_⟩
  intro i o
  constructor
  · intro hAt hNot
    have hNil : ids o = [] := by
      by_contra hNe
      rcases List.exists_mem_of_ne_nil _ hNe with ⟨j, hMem⟩
      rcases mem_classIds_iff.mp hMem with ⟨c, hC, hO⟩
      exact hNot c (List.mem_of_getElem? hC) hO
    apply hPhase.hasStart hOwned
    rw [hStarts, if_pos hNil]
    exact mem_classIds_iff.mpr hAt
  · intro hStart
    have hMem := (hPhase.indexed o).2 i hStart
    rw [hStarts] at hMem
    split at hMem
    · exact mem_classIds_iff.mp hMem
    · exact absurd hMem List.not_mem_nil

------------------------------------------------------------
-- Long Lists
------------------------------------------------------------

section Long

variable {O : Type}
variable {m : TagAddresses}
variable {tag : O → jlong}
variable {tags tags' : TagMemory}
variable {o : O}
variable {i n : Nat}

/- An array has fewer start infos than 65536. -/
theorem lt_querySize_of_hasStart
    (hAll : ∀ i < n, HasStart m tag tags o i) :
    n < querySize := by
  by_cases hPos : 0 < n
  · rcases exists_content_of_hasStart (hAll 0 hPos) with
      ⟨c, hContent⟩
    rcases Option.map_eq_some_iff.mp hContent with
      ⟨t, _, hEq⟩
    have hSubset :
        Finset.range n ⊆ (indices c.infos).toFinset := by
      intro i hMem
      rcases hAll i (Finset.mem_range.mp hMem) with
        ⟨info, hInfo, hIndex, _⟩
      rw [carriedInfos_eq hContent] at hInfo
      rw [List.mem_toFinset, ← hIndex]
      exact List.mem_map_of_mem hInfo
    have hCard := Finset.card_le_card hSubset
    rw [Finset.card_range] at hCard
    have hLength := List.toFinset_card_le (indices c.infos)
    unfold indices at hCard hLength
    rw [List.length_map] at hLength
    rw [← hEq] at hCard hLength
    exact Nat.lt_of_le_of_lt (hCard.trans hLength)
      t.array.size_lt
  · have hZero : n = 0 := by omega
    rw [hZero]
    decide

/- No object carries `TagWithNewInfo`. -/
def NoReset
    (m : TagAddresses)
    (tag : O → jlong) : Prop :=
  ∀ o, tag o ≠ m.tagWithNewInfo

/- The calls that are left of a loop, and its end. -/
def Work.left : Work O → Nat
| .createTags todo => todo.length
| .tagClasses todo => todo.length
| .iterate _ todo => todo.length
| _ => 0

def Work.ended : Work O → Work O
| .createTags _ => .createTags []
| .tagClasses _ => .tagClasses []
| .iterate callback _ => .iterate callback []
| work => work

variable [Fintype O]
variable [DecidableEq O]
variable {h : Heap O}
variable {work : Work O}
variable {data : Tagged O jlong (Option TagMemory)}

omit [Fintype O] [DecidableEq O] in
theorem new_ne_tagWithNewInfo
    (m : TagAddresses)
    (tags : TagMemory)
    (t : Tag) :
    (tags.new m t).1 ≠ m.tagWithNewInfo :=
  ne_tagWithNewInfo_of_not_mem new_not_reserved

-- no loop before the search resets the tag of an object
omit [DecidableEq O] in
theorem createTagForObject_ne_reset
    {b : jlong}
    (hOwned : Owned m tag tags)
    (hNe : tag o ≠ m.tagWithNewInfo)
    (hSome :
      createTagForObject m i (tag o) tags =
        some (b, tags')) :
    b ≠ m.tagWithNewInfo := by
  rcases createTagForObject_contentAt (hOwned.inUse o)
      hSome with ⟨_, hFree, _⟩ | ⟨_, hB, _⟩
  · exact ne_tagWithNewInfo_of_not_mem
      (fun hMem => hFree (Or.inl hMem))
  · rw [hB]
    exact hNe

omit [Fintype O] [DecidableEq O] in
theorem tagClass_ne_reset
    {b : jlong}
    (hNe : tag o ≠ m.tagWithNewInfo)
    (hSome : tagClass m i (tag o) tags = some (b, tags')) :
    b ≠ m.tagWithNewInfo := by
  unfold tagClass at hSome
  rcases Option.bind_eq_some_iff.mp hSome with
    ⟨classTag, _, hBranch⟩
  cases classTag with
  | none =>
      cases hBranch
      exact new_ne_tagWithNewInfo m tags (.ofClass i)
  | some ids =>
      rcases Option.bind_eq_some_iff.mp hBranch with
        ⟨next, _, hEq⟩
      cases hEq
      exact hNe

omit [Fintype O] [DecidableEq O] in
theorem tagObjectOfTaggedClass_ne_reset
    {b c : jlong}
    (hNe : tag o ≠ m.tagWithNewInfo)
    (hSome :
      tagObjectOfTaggedClass m c (tag o) tags =
        some (b, tags')) :
    b ≠ m.tagWithNewInfo := by
  unfold tagObjectOfTaggedClass at hSome
  rcases Option.bind_eq_some_iff.mp hSome with
    ⟨classTag, _, hBranch⟩
  cases classTag with
  | none =>
      cases hBranch
      exact hNe
  | some ids =>
      dsimp only at hBranch
      split at hBranch
      · cases hBranch
        exact new_ne_tagWithNewInfo m tags (.startTag ids)
      · cases hBranch
        exact hNe

omit [Fintype O] in
/- So a call that tags an object keeps them all. -/
theorem NoReset.setTag
    {f : TagMemory → Option (jlong × TagMemory)}
    (hNoReset : NoReset m data.tag)
    (hUser : data.user = some tags)
    (hNext : (setTag o f data).user = some tags')
    (hKeeps :
      ∀ b, f tags = some (b, tags') →
        b ≠ m.tagWithNewInfo) :
    NoReset m (setTag o f data).tag := by
  rcases setTag_some hUser hNext with ⟨b, hSome, hTag⟩
  rw [hTag]
  intro p
  by_cases hEq : p = o
  · rw [hEq, Function.update_self]
    exact hKeeps b hSome
  · rw [Function.update_of_ne hEq]
    exact hNoReset p

/- The next call of such a loop, and what is left of it. -/
theorem exists_call
    {k : Nat}
    (hQuiet : work.isQuiet)
    (hLeft : work.left = k + 1)
    (hInvariant :
      Invariant m data
        (fun tag tags => WorkInvariant m tag tags work) tags)
    (hNoReset : NoReset m data.tag) :
    ∃ next tags',
      call m h data work = some next ∧
      next.2.isQuiet ∧ next.2.left = k ∧
      next.2.ended = work.ended ∧
      Invariant m next.1
        (fun tag tags => WorkInvariant m tag tags next.2)
        tags' ∧
      NoReset m next.1.tag := by
  cases work with
  | createTags todo =>
      cases todo with
      | nil => cases hLeft
      | cons p todo =>
          rcases p with ⟨o, i⟩
          rcases Invariant.call (h := h) hInvariant rfl with
            ⟨tags', hNext⟩
          refine ⟨_, tags', rfl, trivial,
            Nat.succ.inj hLeft, rfl, hNext, ?_⟩
          exact hNoReset.setTag hInvariant.user hNext.user
            (fun b hSome =>
              createTagForObject_ne_reset hInvariant.owned
                (hNoReset o) hSome)
  | tagClasses todo =>
      cases todo with
      | nil => cases hLeft
      | cons p todo =>
          rcases p with ⟨o, i⟩
          rcases Invariant.call (h := h) hInvariant rfl with
            ⟨tags', hNext⟩
          refine ⟨_, tags', rfl, trivial,
            Nat.succ.inj hLeft, rfl, hNext, ?_⟩
          exact hNoReset.setTag hInvariant.user hNext.user
            (fun b hSome =>
              tagClass_ne_reset (hNoReset o) hSome)
  | iterate callback todo =>
      cases todo with
      | nil => cases hLeft
      | cons o todo =>
          have hCallback :
              callback = .tagObjectOfTaggedClass :=
            hQuiet
          subst hCallback
          rcases Invariant.call (h := h) hInvariant rfl with
            ⟨tags', hNext⟩
          refine ⟨_, tags', rfl, rfl,
            Nat.succ.inj hLeft, rfl, hNext, ?_⟩
          exact hNoReset.setTag hInvariant.user hNext.user
            (fun b hSome =>
              tagObjectOfTaggedClass_ne_reset (hNoReset o)
                hSome)
  | follow callback pending visited =>
      exact absurd hQuiet id
  | walk todo pending visited => exact absurd hQuiet id

/- The loop goes on to its end. -/
theorem run_calls
    (rest : List (Stage O))
    (collected : List O)
    (k : Nat)
    (hQuiet : work.isQuiet)
    (hLeft : work.left = k)
    (hInvariant :
      Invariant m data
        (fun tag tags => WorkInvariant m tag tags work) tags)
    (hNoReset : NoReset m data.tag) :
    ∃ data' tags',
      run m ⟨h, data, .running work rest collected⟩
          (List.replicate k .call) =
        some ⟨h, data',
          .running work.ended rest collected⟩ ∧
      Invariant m data'
        (fun tag tags =>
          WorkInvariant m tag tags work.ended) tags' ∧
      NoReset m data'.tag := by
  induction k generalizing work data tags with
  | zero =>
      have hEnded : work.ended = work := by
        cases work with
        | createTags todo =>
            rw [List.eq_nil_of_length_eq_zero hLeft]
            rfl
        | tagClasses todo =>
            rw [List.eq_nil_of_length_eq_zero hLeft]
            rfl
        | iterate callback todo =>
            rw [List.eq_nil_of_length_eq_zero hLeft]
            rfl
        | follow callback pending visited => rfl
        | walk todo pending visited => rfl
      rw [hEnded]
      exact ⟨data, tags, rfl, hInvariant, hNoReset⟩
  | succ k ih =>
      rcases exists_call (h := h) hQuiet hLeft hInvariant
          hNoReset with
        ⟨next, tags', hCall, hQuiet', hLeft', hEnded, hNext,
          hNoReset'⟩
      rcases ih hQuiet' hLeft' hNext hNoReset' with
        ⟨data', tags₂, hRun, hInvariant', hEnd⟩
      rw [hEnded] at hRun hInvariant'
      refine ⟨data', tags₂, ?_, hInvariant', hEnd⟩
      have hStep :
          execute m ⟨h, data, .running work rest collected⟩
              .call =
            some ⟨h, next.1,
              .running next.2 rest collected⟩ := by
        unfold execute
        dsimp only
        rw [hCall]
        rfl
      unfold SizesTags.run at hRun ⊢
      rw [List.replicate_succ, List.foldlM_cons, hStep]
      exact hRun

omit [Fintype O] [DecidableEq O] in
theorem continues_replicate
    (k : Nat) :
    ∀ command ∈ List.replicate k (Command.call (O := O)),
      command.continues := by
  intro command hMem
  rw [List.eq_of_mem_replicate hMem]
  trivial

end Long

/- A heap with one object. -/
def unitHeap : Heap Unit where
  roots := []
  references := fun _ => []
  size := fun _ => 16
  classOf := id
  roots_isRoot := by decide
  references_isHeld := by decide
  size_pos := by decide

/- One object at all positions. -/
theorem le_of_objectLaw
    {n : Nat}
    (hLaw : ObjectLaw n) :
    n ≤ 65535 := by
  let objects := List.replicate n ()
  let action : Action Unit := .estimateRetainedSize objects
  have hCard : Fintype.card Unit < refCountSize := by
    decide +kernel
  have hLength : objects.length = n := List.length_replicate
  have hStart :
      execute lowAddresses (.initial unitHeap)
          (.start unitHeap action) =
        some ⟨unitHeap, (State.initial unitHeap).data,
          .running (.createTags objects.zipIdx)
            action.stages []⟩ :=
    rfl
  rcases Invariant.execute hCard
      (Invariant.initial unitHeap) hStart with
    ⟨tags, hInvariant⟩
  have hLeft :
      (Work.createTags objects.zipIdx).left = n := by
    change objects.zipIdx.length = n
    rw [List.length_zipIdx, hLength]
  have hZero :
      NoReset lowAddresses
        (State.initial unitHeap).data.tag := by
    intro o hEq
    cases hEq
  have hQuiet : (Work.createTags objects.zipIdx).isQuiet :=
    trivial
  rcases run_calls (h := unitHeap) action.stages [] n hQuiet
      hLeft hInvariant hZero with
    ⟨data, tags', hRun, _, hNoReset⟩
  have hUninterrupted :
      Uninterrupted lowAddresses unitHeap action
        ⟨unitHeap, data, .running (.createTags [])
          action.stages []⟩ := by
    refine ⟨.initial unitHeap, List.replicate n .call,
      ⟨unitHeap, [], rfl⟩, continues_replicate n, ?_⟩
    unfold SizesTags.run at hRun ⊢
    rw [List.foldlM_cons, hStart]
    exact hRun
  rcases hLaw Unit lowAddresses unitHeap objects _ hCard
      hLength hUninterrupted with
    ⟨tags₂, work, rest, collected, _, hPoint, _, hAll⟩
  cases hPoint
  apply Nat.le_of_lt_succ
  apply lt_querySize_of_hasStart
  · intro i hLt
    have hAt : objects[i]? = some () := by
      rw [List.getElem?_replicate, if_pos hLt]
    rcases (hAll i ()).1 hAt with hAwaits | hHas
    · rcases hAwaits with hListed | ⟨hNew, _⟩
      · exact absurd hListed List.not_mem_nil
      · exact absurd hNew (hNoReset ())
    · exact hHas

/- A class object and an instance. -/
def instanceHeap : Heap Bool where
  roots := []
  references := fun _ => []
  size := fun _ => 16
  classOf := fun _ => false
  roots_isRoot := by decide
  references_isHeld := no_references_isHeld
  size_pos := fun _ => sixteen_pos

/- The stages after the instances are tagged. -/
def laterStages : List (Stage Bool) :=
  Action.tagHeap (.iterate .retagStartObjects) ++
    [.iterate .visitObject]

theorem begin_instances
    (data : Tagged Bool jlong (Option TagMemory)) :
    execute lowAddresses
        ⟨instanceHeap, data, .running (.tagClasses [])
          (.iterate .tagObjectOfTaggedClass ::
            laterStages) []⟩
        (.begin [false, true]) =
      some ⟨instanceHeap, data,
        .running
          (.iterate .tagObjectOfTaggedClass [false, true])
          laterStages []⟩ := by
  have hOrder :
      [false, true].Nodup ∧
        ∀ o : Bool, o ∈ [false, true] ↔
          Iteration.tagObjectOfTaggedClass.passes
            instanceHeap data.tag o = true := by
    refine ⟨by decide, ?_⟩
    intro o
    exact iff_of_true (by cases o <;> decide) rfl
  have hDone :
      (Work.tagClasses ([] : List (Bool × Nat))).isDone =
        true :=
    rfl
  unfold execute begin
  dsimp only
  rw [if_pos hDone, if_pos hOrder]
  rfl

/- A run that has tagged the classes and the instances. -/
theorem exists_tagged_instances
    (hCard : Fintype.card Bool < refCountSize)
    (listed : List (Bool × Nat)) :
    ∃ data,
      Uninterrupted lowAddresses instanceHeap
          (.getRetainedSizeByClasses listed)
          ⟨instanceHeap, data,
            .running (.iterate .tagObjectOfTaggedClass [])
              laterStages []⟩ ∧
        NoReset lowAddresses data.tag := by
  let stages : List (Stage Bool) :=
    .iterate .tagObjectOfTaggedClass :: laterStages
  have hStart :
      execute lowAddresses (.initial instanceHeap)
          (.start instanceHeap
            (.getRetainedSizeByClasses listed)) =
        some ⟨instanceHeap, (State.initial instanceHeap).data,
          .running (.tagClasses listed) stages []⟩ :=
    rfl
  rcases Invariant.execute hCard
      (Invariant.initial instanceHeap) hStart with
    ⟨tags, hInvariant⟩
  have hZero :
      NoReset lowAddresses
        (State.initial instanceHeap).data.tag := by
    intro o hEq
    cases hEq
  have hQuiet : (Work.tagClasses listed).isQuiet := trivial
  rcases run_calls (h := instanceHeap) stages []
      listed.length hQuiet rfl hInvariant hZero with
    ⟨data₁, tags₁, hRun₁, hInvariant₁, hNoReset₁⟩
  let work : Work Bool :=
    .iterate .tagObjectOfTaggedClass [false, true]
  have hWork :
      Invariant lowAddresses data₁
        (fun tag tags =>
          WorkInvariant lowAddresses tag tags work) tags₁ :=
    ⟨hInvariant₁.user, hInvariant₁.owned, trivial⟩
  have hQuiet' : work.isQuiet := rfl
  rcases run_calls (h := instanceHeap) laterStages [] 2
      hQuiet' rfl hWork hNoReset₁ with
    ⟨data₂, tags₂, hRun₂, _, hNoReset₂⟩
  refine ⟨data₂, ?_, hNoReset₂⟩
  refine ⟨.initial instanceHeap,
    List.replicate listed.length .call ++
      .begin [false, true] :: List.replicate 2 .call,
    ⟨instanceHeap, [], rfl⟩, ?_, ?_⟩
  · intro command hMem
    rcases List.mem_append.mp hMem with hFirst | hRest
    · exact continues_replicate _ command hFirst
    · rcases List.mem_cons.mp hRest with hHead | hLast
      · rw [hHead]
        trivial
      · exact continues_replicate _ command hLast
  · unfold SizesTags.run at hRun₁ hRun₂ ⊢
    rw [List.foldlM_cons, hStart, Option.bind_eq_bind,
      Option.bind_some, List.foldlM_append, hRun₁,
      Option.bind_eq_bind, Option.bind_some,
      List.foldlM_cons]
    change (execute lowAddresses
      ⟨instanceHeap, data₁, .running (.tagClasses []) stages
        []⟩ (.begin [false, true])).bind _ = _
    rw [begin_instances]
    exact hRun₂

/- One class at all positions. -/
theorem le_of_classLaw
    {n : Nat}
    (hLaw : ClassLaw n) :
    n ≤ 65535 := by
  let classes := List.replicate n false
  let found : Bool → List Bool := fun c => [c]
  have hCard : Fintype.card Bool < refCountSize := by
    decide +kernel
  have hLength : classes.length = n := List.length_replicate
  rcases exists_tagged_instances hCard
      (taggedClasses found classes) with
    ⟨data, hUninterrupted, hNoReset⟩
  rcases hLaw Bool lowAddresses instanceHeap found classes _
      hCard (fun c => List.nodup_singleton c) hLength
      hUninterrupted with
    ⟨tags, work, rest, collected, _, hPoint, _, hAll⟩
  cases hPoint
  apply Nat.le_of_lt_succ
  apply lt_querySize_of_hasStart
  · intro i hLt
    have hAt :
        ∃ c, classes[i]? = some c ∧
          instanceHeap.classOf true ∈ found c := by
      refine ⟨false, ?_, List.mem_singleton_self false⟩
      rw [List.getElem?_replicate, if_pos hLt]
    have hNot : ∀ c ∈ classes, true ∉ found c := by
      intro c hC hMem
      rw [List.eq_of_mem_replicate hC] at hMem
      cases List.mem_singleton.mp hMem
    rcases (hAll i true).1 hAt hNot with hAwaits | hHas
    · rcases hAwaits with hRest | ⟨todo, hEq, hTodo⟩ | hNew
      · exact absurd hRest (by decide)
      · cases hEq
        exact absurd hTodo List.not_mem_nil
      · exact absurd hNew.1 (hNoReset true)
    · exact hHas

/- Up to 65535 positions, and no more. -/
theorem indexLaw_iff
    (n : Nat) :
    (ObjectLaw n ↔ n ≤ 65535) ∧ (ClassLaw n ↔ n ≤ 65535) :=
  ⟨⟨le_of_objectLaw, objectLaw_of_le⟩,
    ⟨le_of_classLaw, classLaw_of_le⟩⟩

theorem not_indexLaw :
    ¬ ObjectLaw 65536 ∧ ¬ ClassLaw 65536 :=
  ⟨fun hLaw => absurd (le_of_objectLaw hLaw) (by decide),
    fun hLaw => absurd (le_of_classLaw hLaw) (by decide)⟩

end SizesTags

end MemoryAgent
