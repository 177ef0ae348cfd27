import MemoryAgent.Sizes.Tags.SizeSums
import MemoryAgent.Sizes.Tags.StartTags

/-
  Runs of `estimateRetainedSize`.  From the end of the first
  loop on, each listed object has its start infos, or has
  been reset and gets them again; so that it counts in the
  result at each of its positions, and alike.

  Key definitions include:
    * `SizesTags.ObjectPhase`
    * `SizesTags.HasStart`
    * `SizesTags.AwaitsStart`

  Main results:
    * `SizesTags.objectPhases`
    * `SizesTags.estimateRetainedSize_start`
-/

------------------------------------------------------------
-- Phases
------------------------------------------------------------

namespace MemoryAgent

namespace SizesTags

open RecordStore TagMemory TagInfoArray Query

section Phases

variable {O : Type}
variable [Fintype O]
variable [DecidableEq O]
variable {q : Query O}
variable {m : TagAddresses}
variable {h : Heap O}
variable {objects : List O}
variable {tag : O → jlong}
variable {tags tags' : TagMemory}
variable {resets : Bool}

/- The stages after the search, and after the retagging. -/
def afterRetag : List (Stage O) :=
  [.follow .visitReference, .walk, .iterate .visitObject]

def afterCollect (objects : List O) : List (Stage O) :=
  .retag objects.zipIdx :: afterRetag

/- What holds at each stage of a run for listed objects. -/
inductive ObjectPhase
    (q : Query O)
    (m : TagAddresses)
    (objects : List O) :
    Work O → List (Stage O) → (O → jlong) → TagMemory →
      Prop
  | create {todo : List (O × Nat)} {tag : O → jlong}
      {tags : TagMemory} :
      q.Creating m todo tag tags →
        ObjectPhase q m objects (.createTags todo)
          (.follow .getTagsWithNewInfo :: .collect ::
            afterCollect objects) tag tags
  | search {pending : List (Report O)} {visited : List O}
      {tag : O → jlong} {tags : TagMemory} :
      q.Started m true tag tags →
        ObjectPhase q m objects
          (.follow .getTagsWithNewInfo pending visited)
          (.collect :: afterCollect objects) tag tags
  | collected {tag : O → jlong} {tags : TagMemory} :
      q.Started m true tag tags →
        ObjectPhase q m objects (.createTags [])
          (afterCollect objects) tag tags
  | retag {todo : List (O × Nat)} {tag : O → jlong}
      {tags : TagMemory} :
      q.Creating m todo tag tags →
        ObjectPhase q m objects (.createTags todo)
          afterRetag tag tags
  | visit {pending : List (Report O)} {visited : List O}
      {tag : O → jlong} {tags : TagMemory} :
      q.Started m false tag tags →
        ObjectPhase q m objects
          (.follow .visitReference pending visited)
          [.walk, .iterate .visitObject] tag tags
  | walk {todo : List O} {pending : List (Report O)}
      {visited : List O} {tag : O → jlong}
      {tags : TagMemory} :
      q.Started m false tag tags →
        ObjectPhase q m objects (.walk todo pending visited)
          [.iterate .visitObject] tag tags
  | sum {todo : List O} {tag : O → jlong}
      {tags : TagMemory} :
      q.Started m false tag tags →
        ObjectPhase q m objects (.iterate .visitObject todo)
          [] tag tags

theorem objectPhases
    (hApart : q.Apart)
    (hListed :
      ∀ o, q.starts o = indicesIn objects.zipIdx o)
    (m : TagAddresses)
    (h : Heap O) :
    Phases m h (.estimateRetainedSize objects)
      (ObjectPhase q m objects) where
  start := fun hZero => .create (creating_start hListed hZero)
  createTag := by
    intro o i todo rest tag tags b tags' hPhase hOwned hSome
    cases hPhase with
    | create hCreating =>
        exact .create
          (hCreating.createTag hApart hOwned hSome)
    | retag hCreating =>
        exact .retag
          (hCreating.createTag hApart hOwned hSome)
  tagClass := by
    intro o i todo rest tag tags b tags' hPhase _ _
    cases hPhase
  iterate := by
    intro callback o todo rest tag tags b tags' hPhase _ hSome
    cases hPhase with
    | sum hStarted =>
        rcases reads_visitObject hSome with ⟨hB, hTags⟩
        rw [hB, hTags, Function.update_eq_self]
        exact .sum hStarted
  getTags := by
    intro o args _ _ _ _ rest tag tags b tags' hPhase hOwned
      hTag hReferrer hSome hNext
    cases hPhase with
    | search hStarted =>
        exact .search (hStarted.reshaped
          (getTagsWithNewInfo_reshaped hOwned hTag hReferrer
            hSome hNext))
  visit := by
    intro o args _ _ _ _ rest tag tags b tags' hPhase hOwned
      hTag hReferrer hSome hNext
    cases hPhase with
    | visit hStarted =>
        exact .visit (hStarted.reshaped
          (visitReference_reshaped hOwned hTag hReferrer
            hSome hNext))
  spread := by
    intro o args _ _ _ _ _ rest tag tags b tags' hPhase
      hOwned hTag hReferrer hSome hNext
    cases hPhase with
    | walk hStarted =>
        exact .walk (hStarted.reshaped
          (spreadInfo_reshaped hOwned hTag hReferrer hSome
            hNext))
  walk := by
    intro o _ _ _ _ _ rest tag tags tags' hPhase hSame
    cases hPhase with
    | walk hStarted => exact .walk (hStarted.sameTags hSame)
  begin := by
    intro work stage rest data tags order collected next
      hPhase _ hDone hBegin
    cases hPhase with
    | create hCreating =>
        rw [List.isEmpty_iff.mp hDone] at hCreating
        cases hBegin
        exact .search hCreating.started.mono
    | search hStarted =>
        simp only [SizesTags.begin] at hBegin
        split at hBegin
        · cases hBegin
          exact .collected hStarted
        · cases hBegin
    | collected hStarted =>
        cases hBegin
        exact .retag (creating_retag hListed hStarted)
    | retag hCreating =>
        rw [List.isEmpty_iff.mp hDone] at hCreating
        cases hBegin
        exact .visit hCreating.started
    | visit hStarted =>
        cases hBegin
        exact .walk hStarted
    | walk hStarted =>
        simp only [SizesTags.begin] at hBegin
        split at hBegin
        · cases hBegin
          exact .sum hStarted
        · cases hBegin

------------------------------------------------------------
-- Start Infos
------------------------------------------------------------

/- The tag of an object has a start info with an index. -/
def HasStart
    (m : TagAddresses)
    (tag : O → jlong)
    (tags : TagMemory)
    (o : O)
    (i : Nat) : Prop :=
  ∃ info ∈ carriedInfos m tag tags o,
    info.index = i ∧ isStartObject info.state = true

/- The objects that still get a tag, with their indices. -/
def Work.listed : Work O → List (O × Nat)
| .createTags todo => todo
| _ => []

/-
  The info was not created yet, or the tag was reset and
  will be created again.
-/
def AwaitsStart
    (m : TagAddresses)
    (objects : List O)
    (work : Work O)
    (rest : List (Stage O))
    (tag : O → jlong)
    (o : O)
    (i : Nat) : Prop :=
  (o, i) ∈ work.listed ∨
    (tag o = m.tagWithNewInfo ∧
      .retag objects.zipIdx ∈ rest)

variable {o : O}
variable {i : Nat}

omit [Fintype O] [DecidableEq O] in
theorem carriedInfos_eq
    {c : Content}
    (hContent : tags.contentAt m (tag o) = some c) :
    carriedInfos m tag tags o = c.infos := by
  have hZero : tag o ≠ 0 := by
    intro hZero
    rw [hZero, TagMemory.contentAt, viewAt_zero] at hContent
    cases hContent
  rcases Option.map_eq_some_iff.mp hContent with
    ⟨t, hT, hEq⟩
  unfold carriedInfos visitedInfos
  rw [if_neg hZero, hT, ← hEq]
  rfl

omit [Fintype O] [DecidableEq O] in
theorem carriedInfos_zero
    (hZero : tag o = 0) :
    carriedInfos m tag tags o = [] := by
  unfold carriedInfos visitedInfos
  rw [if_pos hZero]
  rfl

omit [Fintype O] [DecidableEq O] in
theorem carriedInfos_of_none
    (hContent : tags.contentAt m (tag o) = none) :
    carriedInfos m tag tags o = [] := by
  unfold TagMemory.contentAt viewAt at hContent
  rw [Option.map_eq_none_iff] at hContent
  unfold carriedInfos visitedInfos
  rw [hContent]
  split
  · rfl
  · rfl

omit [Fintype O] [DecidableEq O] in
theorem hasStart_iff
    {c : Content}
    (hContent : tags.contentAt m (tag o) = some c) :
    HasStart m tag tags o i ↔ i ∈ startIndices c.infos := by
  unfold HasStart startIndices indices
  rw [carriedInfos_eq hContent, List.mem_map]
  constructor
  · rintro ⟨info, hMem, hIndex, hStart⟩
    exact ⟨info, List.mem_filter.mpr ⟨hMem, hStart⟩, hIndex⟩
  · rintro ⟨info, hMem, hIndex⟩
    rcases List.mem_filter.mp hMem with ⟨hInfos, hStart⟩
    exact ⟨info, hInfos, hIndex, hStart⟩

omit [DecidableEq O] in
theorem Owned.exists_content
    (hOwned : Owned m tag tags)
    (hNe : tag o ≠ 0) :
    ∃ c, tags.contentAt m (tag o) = some c := by
  rcases hOwned.consistent.exists_dereference
      (hOwned.valid hNe) with ⟨t, hT⟩
  exact ⟨t.content, exists_contentAt hT⟩

omit [DecidableEq O] in
theorem Query.Holds.hasStart
    (hOwned : Owned m tag tags)
    (hHolds :
      q.Holds m resets o (tag o)
        (tags.contentAt m (tag o)))
    (hMem : i ∈ q.starts o)
    (hNew : tag o ≠ m.tagWithNewInfo) :
    HasStart m tag tags o i := by
  have hTagged :=
    hHolds.tagged (List.ne_nil_of_mem hMem)
  rcases hOwned.exists_content hTagged.1 with
    ⟨c, hContent⟩
  rw [hasStart_iff hContent,
    (hHolds.marks hNew c hContent).1]
  exact hMem

omit [DecidableEq O] in
theorem Query.Holds.hasStart_of_false
    (hOwned : Owned m tag tags)
    (hHolds :
      q.Holds m false o (tag o)
        (tags.contentAt m (tag o)))
    (hMem : i ∈ q.starts o) :
    HasStart m tag tags o i :=
  hHolds.hasStart hOwned hMem
    ((hHolds.tagged (List.ne_nil_of_mem hMem)).2 rfl)

omit [DecidableEq O] in
theorem Query.Started.hasStart
    (hOwned : Owned m tag tags)
    (hStarted : q.Started m false tag tags)
    (hMem : i ∈ q.starts o) :
    HasStart m tag tags o i :=
  (hStarted o).hasStart_of_false hOwned hMem

theorem Query.Creating.hasStart
    {todo : List (O × Nat)}
    (hOwned : Owned m tag tags)
    (hCreating : q.Creating m todo tag tags)
    (hMem : i ∈ q.starts o) :
    (o, i) ∈ todo ∨ HasStart m tag tags o i := by
  rcases hCreating o with
    ⟨_, hHolds⟩ | ⟨_, l, hStarts, hCreated⟩
  · exact Or.inr (hHolds.hasStart_of_false hOwned hMem)
  · rw [hStarts] at hMem
    rcases List.mem_append.mp hMem with hL | hTodo
    · rcases hCreated with ⟨hNil, _⟩ | ⟨_, _, hContent⟩
      · rw [hNil] at hL
        exact absurd hL List.not_mem_nil
      · apply Or.inr
        rw [hasStart_iff hContent, startIndices_startInfo]
        exact hL
    · exact Or.inl (mem_indicesIn_iff.mp hTodo)

/- No step drops a start info for good. -/
theorem ObjectPhase.hasStart
    {work : Work O}
    {rest : List (Stage O)}
    (hOwned : Owned m tag tags)
    (hPhase : ObjectPhase q m objects work rest tag tags)
    (hMem : i ∈ q.starts o) :
    AwaitsStart m objects work rest tag o i ∨
      HasStart m tag tags o i := by
  have hReset :
      q.Started m true tag tags →
        .retag objects.zipIdx ∈ rest →
          AwaitsStart m objects work rest tag o i ∨
            HasStart m tag tags o i := by
    intro hStarted hRetag
    by_cases hNew : tag o = m.tagWithNewInfo
    · exact Or.inl (Or.inr ⟨hNew, hRetag⟩)
    · exact Or.inr
        ((hStarted o).hasStart hOwned hMem hNew)
  cases hPhase with
  | create hCreating =>
      exact (hCreating.hasStart hOwned hMem).imp_left Or.inl
  | search hStarted =>
      exact hReset hStarted
        (List.mem_cons_of_mem _ List.mem_cons_self)
  | collected hStarted =>
      exact hReset hStarted List.mem_cons_self
  | retag hCreating =>
      exact (hCreating.hasStart hOwned hMem).imp_left Or.inl
  | visit hStarted =>
      exact Or.inr (hStarted.hasStart hOwned hMem)
  | walk hStarted =>
      exact Or.inr (hStarted.hasStart hOwned hMem)
  | sum hStarted =>
      exact Or.inr (hStarted.hasStart hOwned hMem)

------------------------------------------------------------
-- Results
------------------------------------------------------------

omit [DecidableEq O] in
theorem Query.Started.fits
    (hOwned : Owned m tag tags)
    (hStarted : q.Started m resets tag tags)
    (o : O) :
    q.Fits (carriedInfos m tag tags o) := by
  by_cases hZero : tag o = 0
  · rw [carriedInfos_zero hZero]
    exact Fits.nil
  · rcases hOwned.exists_content hZero with ⟨c, hContent⟩
    rw [carriedInfos_eq hContent]
    exact (hStarted o).fits c hContent

/- A start object counts at each of its indices. -/
theorem sizeFor_of_start
    {infos : List TagInfo}
    {info : TagInfo}
    (hIncreasing : Increasing infos)
    (size : jlong)
    (hMem : info ∈ infos)
    (hStart : isStartObject info.state = true) :
    sizeFor isRetained size infos info.index = size := by
  have hState :
      stateAt infos info.index = some info.state :=
    (stateAt_eq_some_iff hIncreasing).mpr hMem
  unfold sizeFor
  rw [hState, Option.any_some, if_pos]
  unfold isRetained
  rw [hStart]
  rfl

omit [DecidableEq O] in
/- The sums of a query whose start objects have their infos. -/
theorem Query.Started.calculateRetainedSizes
    (hOwned : Owned m tag tags)
    (hStarted : q.Started m false tag tags)
    (h : Heap O)
    {order : List O}
    (hOrder : ∀ o, o ∈ order ↔ tag o ≠ 0) :
    ∃ result,
      calculateRetainedSizes m h tag tags order q.count =
          some result ∧
        (∀ o, ∀ i ∈ q.starts o,
          ∃ size, result[i]? = some size ∧
            h.size o ≤ size) ∧
        ∀ i j, q.twins i j → (i < q.count ↔ j < q.count) →
          result[i]? = result[j]? := by
  have hIncreasing :
      ∀ o, Increasing (carriedInfos m tag tags o) :=
    fun o => (hStarted.fits hOwned o).increasing
  have hEq := hOwned.calculateRetainedSizes_eq h order q.count
  refine ⟨_, hEq, ?_, ?_⟩
  · intro o i hMem
    have hLt := q.starts_lt o i hMem
    rw [foldl_addSizes_getElem? hIncreasing,
      List.getElem?_replicate, if_pos hLt]
    refine ⟨_, rfl, ?_⟩
    dsimp only
    rw [zero_add]
    rcases hStarted.hasStart hOwned hMem with
      ⟨info, hInfo, hIndex, hStart⟩
    have hSize :
        sizeFor isRetained (h.size o)
            (carriedInfos m tag tags o) i =
          h.size o := by
      rw [← hIndex]
      exact sizeFor_of_start (hIncreasing o) _ hInfo hStart
    have hInOrder : o ∈ order :=
      (hOrder o).mpr
        ((hStarted o).tagged (List.ne_nil_of_mem hMem)).1
    have hTerm :
        h.size o ∈ order.map (fun p =>
          sizeFor isRetained (h.size p)
            (carriedInfos m tag tags p) i) :=
      List.mem_map.mpr ⟨o, hInOrder, hSize⟩
    refine List.single_le_sum ?_ _ hTerm
    intro x hX
    rcases List.mem_map.mp hX with ⟨p, _, hP⟩
    rw [← hP]
    exact sizeFor_nonneg (h.size_pos p) _ _ _
  · intro i j hTwins hCount
    rw [foldl_addSizes_getElem? hIncreasing,
      foldl_addSizes_getElem? hIncreasing,
      List.getElem?_replicate, List.getElem?_replicate]
    have hTerms :
        ∀ p,
          sizeFor isRetained (h.size p)
              (carriedInfos m tag tags p) i =
            sizeFor isRetained (h.size p)
              (carriedInfos m tag tags p) j := by
      intro p
      unfold sizeFor
      rw [(hStarted.fits hOwned p).twins i j hTwins]
    simp only [hTerms, hCount]

end Phases

/-
  In each state of a run that is not interrupted, a listed
  object has a start info for each of its positions, or is
  about to get it; and the sums of a completed run are at
  least its size there, and the same at all of them.
-/
theorem estimateRetainedSize_start
    {O : Type}
    [Fintype O]
    [DecidableEq O]
    (m : TagAddresses)
    (h : Heap O)
    (objects : List O)
    (s : State O)
    (hCard : Fintype.card O < refCountSize)
    (hLength : objects.length ≤ 65535)
    (hRun :
      Uninterrupted m h (.estimateRetainedSize objects) s) :
    ∃ tags work rest collected,
      s.data.user = some tags ∧
      s.point = .running work rest collected ∧
      (∀ (i : Nat) (o : O), objects[i]? = some o →
        AwaitsStart m objects work rest s.data.tag o i ∨
          HasStart m s.data.tag tags o i) ∧
      (rest = [.iterate .visitObject] →
        (∀ (i : Nat) (o : O), objects[i]? = some o →
          HasStart m s.data.tag tags o i) ∧
        ∀ order s', execute m s (.begin order) = some s' →
          ∃ result,
            calculateRetainedSizes m h s.data.tag tags order
                objects.length =
              some result ∧
            (∀ (i : Nat) (o : O), objects[i]? = some o →
              ∃ size, result[i]? = some size ∧
                h.size o ≤ size) ∧
            ∀ i j : Nat, objects[i]? = objects[j]? →
              result[i]? = result[j]?) := by
  let q := Query.ofObjects objects hLength
  have hPhases :
      Phases m h (.estimateRetainedSize objects)
        (ObjectPhase q m objects) :=
    objectPhases (Query.ofObjects_apart hLength)
      (fun _ => rfl) m h
  rcases hRun.phase hPhases hCard with
    ⟨tags, hHeap, ⟨hUser, hOwned, _⟩, work, rest, collected,
      hPoint, hPhase⟩
  refine ⟨tags, work, rest, collected, hUser, hPoint, ?_, ?_⟩
  · intro i o hAt
    exact hPhase.hasStart hOwned
      (mem_indicesIn_zipIdx.mpr hAt)
  · intro hRest
    subst hRest
    have hStarted : q.Started m false s.data.tag tags := by
      cases hPhase with
      | walk hStarted => exact hStarted
    refine ⟨fun i o hAt => hStarted.hasStart hOwned
      (mem_indicesIn_zipIdx.mpr hAt), ?_⟩
    intro order s' hStep
    have hOrder : ∀ o, o ∈ order ↔ s.data.tag o ≠ 0 := by
      intro o
      rw [(order_of_begin hPoint hStep).2.2 o]
      exact decide_eq_true_iff
    rcases hStarted.calculateRetainedSizes hOwned h hOrder
      with ⟨result, hResult, hSizes, hSame⟩
    refine ⟨result, hResult, ?_, ?_⟩
    · intro i o hAt
      exact hSizes o i (mem_indicesIn_zipIdx.mpr hAt)
    · intro i j hAt
      apply hSame i j hAt
      have hLt :
          ∀ k : Nat, k < objects.length ↔
            objects[k]? ≠ none := by
        intro k
        rw [ne_eq, List.getElem?_eq_none_iff, not_le]
      change i < objects.length ↔ j < objects.length
      rw [hLt, hLt, hAt]

/- The commands of a run, up to its last iteration. -/
def pairStages : List (Command Bool) :=
  [.call, .call, .begin [],
    .report ⟨none, .stackLocal, .none, false⟩,
    .report ⟨some false, .field, .none, true⟩,
    .begin [], .begin [], .begin [],
    .report ⟨none, .stackLocal, .none, false⟩,
    .report ⟨some false, .field, .none, true⟩,
    .begin []]

def beforeLastStage (s : State Bool) : Bool :=
  match s.point with
  | .running _ rest _ =>
      decide (rest = [.iterate .visitObject])
  | _ => false

theorem estimateRetainedSize_start_pair :
    ∃ s, run lowAddresses (.initial pairHeap)
          (.start pairHeap
            (.estimateRetainedSize [false, false]) ::
              pairStages) =
        some s ∧
      ∃ tags work rest collected,
        s.data.user = some tags ∧
        s.point = .running work rest collected ∧
        rest = [.iterate .visitObject] ∧
        ∀ order s',
          execute lowAddresses s (.begin order) = some s' →
            ∃ result,
              calculateRetainedSizes lowAddresses pairHeap
                  s.data.tag tags order 2 =
                some result ∧
              result[0]? = result[1]? := by
  have hSome :
      (run lowAddresses (.initial pairHeap)
        (.start pairHeap
          (.estimateRetainedSize [false, false]) ::
            pairStages)).any beforeLastStage = true := by
    decide +kernel
  rcases (Option.any_eq_true _ _).mp hSome with
    ⟨s, hRun, hRest⟩
  refine ⟨s, hRun, ?_⟩
  rcases estimateRetainedSize_start lowAddresses pairHeap
      [false, false] s (by decide +kernel) (by decide)
      ⟨.initial pairHeap, pairStages, ⟨pairHeap, [], rfl⟩,
        by decide, hRun⟩ with
    ⟨tags, work, rest, collected, hUser, hPoint, _, hLast⟩
  rw [beforeLastStage, hPoint] at hRest
  have hEq := of_decide_eq_true hRest
  refine ⟨tags, work, rest, collected, hUser, hPoint, hEq,
    ?_⟩
  intro order s' hStep
  rcases (hLast hEq).2 order s' hStep with
    ⟨result, hResult, _, hSame⟩
  exact ⟨result, hResult, hSame 0 1 rfl⟩

end SizesTags

end MemoryAgent
