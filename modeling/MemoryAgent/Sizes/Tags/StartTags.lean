import MemoryAgent.Sizes.Tags.StartEntries
import MemoryAgent.Sizes.Tags.UninterruptedRuns

/-
  Start tags of listed objects.  The tag of an object gets
  one start info after another, at each of its positions in
  the list, and is carried by this object only.

  Key definitions include:
    * `SizesTags.indicesIn`
    * `SizesTags.Query.ofObjects`
    * `SizesTags.Query.Creating`

  Main results:
    * `SizesTags.createTagForObject_contentAt`
    * `SizesTags.Query.Creating.createTag`
    * `SizesTags.Query.creating_retag`
-/

------------------------------------------------------------
-- Listed Objects
------------------------------------------------------------

namespace MemoryAgent

namespace SizesTags

open RecordStore TagMemory TagInfoArray

section Listed

variable {O : Type}
variable [DecidableEq O]
variable {o p : O}
variable {i : Nat}
variable {todo : List (O × Nat)}
variable {objects : List O}

/- The indices with which an object is listed. -/
def indicesIn
    (todo : List (O × Nat))
    (o : O) : List Nat :=
  (todo.filter (fun p => decide (p.1 = o))).map Prod.snd

@[simp] theorem indicesIn_nil :
    indicesIn ([] : List (O × Nat)) o = [] :=
  rfl

theorem indicesIn_cons_self :
    indicesIn ((o, i) :: todo) o = i :: indicesIn todo o := by
  simp [indicesIn]

theorem indicesIn_cons_of_ne
    (hNe : p ≠ o) :
    indicesIn ((o, i) :: todo) p = indicesIn todo p := by
  simp [indicesIn, Ne.symm hNe]

theorem mem_indicesIn_iff :
    i ∈ indicesIn todo o ↔ (o, i) ∈ todo := by
  unfold indicesIn
  rw [List.mem_map]
  constructor
  · rintro ⟨⟨p, j⟩, hMem, hEq⟩
    rcases List.mem_filter.mp hMem with ⟨hTodo, hP⟩
    rw [decide_eq_true_iff] at hP
    dsimp only at hP hEq
    rw [← hP, ← hEq]
    exact hTodo
  · intro hMem
    exact ⟨(o, i),
      List.mem_filter.mpr ⟨hMem, decide_eq_true rfl⟩, rfl⟩

theorem mem_indicesIn_zipIdx :
    i ∈ indicesIn objects.zipIdx o ↔
      objects[i]? = some o := by
  rw [mem_indicesIn_iff, List.mem_zipIdx_iff_getElem?]

/- Only the objects with a property are listed. -/
theorem indicesIn_filter
    (P : O → Prop)
    [DecidablePred P] :
    indicesIn (todo.filter (fun p => decide (P p.1))) o =
      if P o then indicesIn todo o else [] := by
  unfold indicesIn
  rw [List.filter_filter]
  split
  · next hP =>
      congr 1
      apply List.filter_congr
      intro p _
      by_cases hEq : p.1 = o
      · simp [hEq, hP]
      · simp [hEq]
  · next hP =>
      rw [List.map_eq_nil_iff, List.filter_eq_nil_iff]
      intro p _
      by_cases hEq : p.1 = o
      · simp [hEq, hP]
      · simp [hEq]

theorem indicesIn_zipIdx_increasing
    (objects : List O)
    (o : O) :
    (indicesIn objects.zipIdx o).Pairwise (· < ·) := by
  have hAll :
      (objects.zipIdx.map Prod.snd).Pairwise (· < ·) := by
    rw [List.zipIdx_map_snd]
    exact List.pairwise_lt_range'
  exact hAll.sublist (List.filter_sublist.map Prod.snd)

omit [DecidableEq O] in
theorem length_lt_querySize
    (hLength : objects.length ≤ 65535) :
    objects.length < querySize :=
  Nat.lt_succ_of_le hLength

/- The positions of a list of objects. -/
def Query.ofObjects
    (objects : List O)
    (hLength : objects.length ≤ 65535) : Query O where
  count := objects.length
  count_lt := length_lt_querySize hLength
  starts := indicesIn objects.zipIdx
  twins := fun i j => objects[i]? = objects[j]?
  starts_increasing := indicesIn_zipIdx_increasing objects
  starts_lt := by
    intro o i hMem
    rw [mem_indicesIn_zipIdx] at hMem
    exact (List.getElem?_eq_some_iff.mp hMem).1
  starts_twins := by
    intro o i j hTwins
    rw [mem_indicesIn_zipIdx, mem_indicesIn_zipIdx, hTwins]

/- No position is that of two objects. -/
def Query.Apart (q : Query O) : Prop :=
  ∀ o p i, i ∈ q.starts o → i ∈ q.starts p → o = p

theorem Query.ofObjects_apart
    (hLength : objects.length ≤ 65535) :
    (Query.ofObjects objects hLength).Apart := by
  intro o p i hO hP
  have hSomeO := mem_indicesIn_zipIdx.mp hO
  have hSomeP := mem_indicesIn_zipIdx.mp hP
  rw [hSomeO] at hSomeP
  exact Option.some.inj hSomeP

end Listed

------------------------------------------------------------
-- Created Tags
------------------------------------------------------------

section Created

variable {m : TagAddresses}
variable {tags tags' : TagMemory}
variable {a b : jlong}
variable {i : Nat}

/- A new tag for an object, or one more info in its tag. -/
theorem createTagForObject_contentAt
    (hInUse : tags.InUse m a)
    (hSome :
      createTagForObject m i a tags = some (b, tags')) :
    ((a = 0 ∨ a = m.tagWithNewInfo) ∧ ¬ tags.InUse m b ∧
        tags'.contentAt m b =
          some ⟨[startInfo (i % querySize)], true⟩ ∧
        ∀ c, tags.InUse m c →
          tags'.contentAt m c = tags.contentAt m c) ∨
      ((a ≠ 0 ∧ a ≠ m.tagWithNewInfo) ∧ b = a ∧
        (∀ c, c ≠ a → tags.InUse m c →
          tags'.contentAt m c = tags.contentAt m c) ∧
        ∃ t : Tag,
          tags.contentAt m a = some t.content ∧
          tags'.contentAt m a =
            some ⟨(t.array.extend
              (.ofInfo (startInfo (i % querySize)))).infos,
              t.isStartTag⟩) := by
  let n : Tag :=
    .ofInfo i (createState true true false false)
  unfold createTagForObject at hSome
  dsimp only at hSome
  split at hSome
  · next hOld =>
      simp only [Option.bind_eq_bind,
        Option.bind_eq_some_iff] at hSome
      rcases hSome with ⟨t, hT, extended, hModify, hEq⟩
      cases hEq
      have hArray : t.array = n.array := by
        have hSelf :
            (tags.new m n).2.viewAt Tag.array m
                (tags.new m n).1 =
              some n.array :=
          new_viewAt_self
        unfold viewAt at hSelf
        rw [hT] at hSelf
        exact Option.some.inj hSelf
      have hDeleted :
          ∀ c, tags.InUse m c →
            (extended.deleteTag (tags.new m n).1).contentAt
                m c =
              extended.contentAt m c := by
        intro c hUse
        apply viewAt_congr
        exact (Store.get_delete c).trans
          (if_neg hUse.ne_new)
      rcases modify_some hModify with ⟨hStatic, r, hR, _⟩
      have hGet : tags.store.get a = some r := by
        rw [new_get, if_neg hInUse.ne_new] at hR
        exact hR
      refine Or.inr ⟨hOld, rfl, ?_, r, ?_, ?_⟩
      · intro c hNe hUse
        rw [hDeleted c hUse]
        exact (modify_viewAt_of_ne hModify hNe).trans
          (new_viewAt hUse)
      · unfold TagMemory.contentAt viewAt dereference
        rw [if_neg hStatic, if_neg hOld.1, hGet]
        rfl
      · rw [hDeleted a hInUse]
        unfold TagMemory.contentAt viewAt dereference
        rw [if_neg hStatic, if_neg hOld.1,
          modify_get hModify, if_pos rfl, hR, hArray]
        rfl
  · next hOld =>
      cases hSome
      refine Or.inl ⟨?_, new_not_inUse (t := n),
        new_viewAt_self, fun c hUse => new_viewAt hUse⟩
      by_contra hNot
      rw [not_or] at hNot
      exact hOld hNot

end Created

------------------------------------------------------------
-- Creation
------------------------------------------------------------

namespace Query

variable {O : Type}
variable {q : Query O}
variable {m : TagAddresses}
variable {tag : O → jlong}
variable {tags tags' : TagMemory}
variable {o p : O}
variable {a b : jlong}
variable {i : Nat}
variable {content : Option Content}

/- A tag with the first positions of an object. -/
def Created
    (m : TagAddresses)
    (l : List Nat)
    (a : jlong)
    (content : Option Content) : Prop :=
  (l = [] ∧ (a = 0 ∨ a = m.tagWithNewInfo)) ∨
    (l ≠ [] ∧ a ∉ m.reserved ∧
      content = some ⟨l.map startInfo, true⟩)

variable [DecidableEq O]

/- The listed objects wait for further positions. -/
def Creating
    (q : Query O)
    (m : TagAddresses)
    (todo : List (O × Nat))
    (tag : O → jlong)
    (tags : TagMemory) : Prop :=
  ∀ o,
    (indicesIn todo o = [] ∧
      q.Holds m false o (tag o)
        (tags.contentAt m (tag o))) ∨
    (indicesIn todo o ≠ [] ∧
      ∃ l, q.starts o = l ++ indicesIn todo o ∧
        Created m l (tag o) (tags.contentAt m (tag o)))

theorem Creating.started
    (hCreating : q.Creating m [] tag tags) :
    q.Started m false tag tags := by
  intro o
  rcases hCreating o with ⟨_, hHolds⟩ | ⟨hNe, _⟩
  · exact hHolds
  · exact absurd indicesIn_nil hNe

omit [DecidableEq O] in
/- Positions of one object that were written to its tag. -/
theorem Created.next
    {l k : List Nat}
    (hStarts : q.starts o = l ++ k)
    (hCreated : Created m l a content)
    (hNe : l ≠ []) :
    (k = [] ∧ q.Holds m false o a content) ∨
      (k ≠ [] ∧ ∃ l, q.starts o = l ++ k ∧
        Created m l a content) := by
  by_cases hNil : k = []
  · rw [hNil, List.append_nil] at hStarts
    rcases hCreated with ⟨hL, _⟩ | ⟨_, hNot, hContent⟩
    · exact absurd hL hNe
    · rw [← hStarts] at hNe hContent
      exact Or.inl ⟨hNil, Holds.created hNe hNot hContent⟩
  · exact Or.inr ⟨hNil, l, hStarts, hCreated⟩

/- Another carrier of such a tag would share a position. -/
theorem Creating.tag_ne
    {todo : List (O × Nat)}
    {l k : List Nat}
    (hApart : q.Apart)
    (hCreating : q.Creating m todo tag tags)
    (hStarts : q.starts o = l ++ k)
    (hNe : l ≠ [])
    (hNot : tag o ∉ m.reserved)
    (hContent :
      tags.contentAt m (tag o) =
        some ⟨l.map startInfo, true⟩)
    (hP : p ≠ o) :
    tag p ≠ tag o := by
  intro hEq
  rw [← hEq] at hNot hContent
  have hNew := ne_tagWithNewInfo_of_not_mem hNot
  have hZero := ne_zero_of_not_mem hNot
  have hSubset : ∀ i ∈ l, i ∈ q.starts p := by
    rcases hCreating p with
      ⟨_, hHolds⟩ | ⟨_, l', hStarts', hCreated⟩
    · have hMarks := (hHolds.marks hNew _ hContent).1
      rw [startIndices_startInfo] at hMarks
      rw [← hMarks]
      exact fun _ hMem => hMem
    · rcases hCreated with ⟨_, hUnset⟩ | ⟨_, _, hSame⟩
      · rcases hUnset with h | h
        · exact absurd h hZero
        · exact absurd h hNew
      · rw [hContent] at hSame
        have hInfos :=
          congrArg Content.infos (Option.some.inj hSame)
        have hL : l = l' := by
          rw [← startIndices_startInfo (l := l),
            ← startIndices_startInfo (l := l')]
          exact congrArg startIndices hInfos
        rw [hStarts', ← hL]
        exact fun _ hMem => List.mem_append_left _ hMem
  rcases List.exists_mem_of_ne_nil l hNe with ⟨i, hMem⟩
  apply hP
  refine hApart p o i (hSubset i hMem) ?_
  rw [hStarts]
  exact List.mem_append_left _ hMem

omit [DecidableEq O] in
/- An extended array has all infos. -/
theorem extend_infos
    {array : TagInfoArray}
    {l k : List Nat}
    (hStarts : q.starts o = l ++ i :: k)
    (hInfos : array.infos = l.map startInfo) :
    (array.extend (.ofInfo (startInfo i))).infos =
      (l ++ [i]).map startInfo := by
  have hLength := q.length_starts_lt o
  rw [hStarts, List.length_append, List.length_cons]
    at hLength
  have hSize :
      (array.getSize +
          (TagInfoArray.ofInfo (startInfo i)).getSize) %
          querySize =
        l.length + 1 := by
    have hArray : array.getSize = l.length := by
      unfold getSize
      rw [hInfos, List.length_map]
    rw [hArray]
    apply Nat.mod_eq_of_lt
    change l.length + 1 < querySize
    omega
  unfold extend
  dsimp only
  rw [hSize, hInfos, List.map_append]
  apply List.take_of_length_le
  rw [List.length_append, List.length_map]
  exact Nat.le_refl _

variable [Fintype O]

/- The next listed object gets its position. -/
theorem Creating.createTag
    {todo : List (O × Nat)}
    (hApart : q.Apart)
    (hOwned : Owned m tag tags)
    (hCreating : q.Creating m ((o, i) :: todo) tag tags)
    (hSome :
      createTagForObject m i (tag o) tags =
        some (b, tags')) :
    q.Creating m todo (Function.update tag o b) tags' := by
  have hSelf := hCreating o
  rw [indicesIn_cons_self] at hSelf
  rcases hSelf with ⟨hNil, _⟩ | ⟨_, l, hStarts, hCreated⟩
  · exact absurd hNil (List.cons_ne_nil _ _)
  have hIndex : i % querySize = i := by
    have hMem : i ∈ q.starts o := by
      rw [hStarts]
      exact List.mem_append_right _ List.mem_cons_self
    exact Nat.mod_eq_of_lt
      ((q.starts_lt o i hMem).trans q.count_lt)
  have hAppend :
      q.starts o = (l ++ [i]) ++ indicesIn todo o := by
    rw [hStarts, List.append_assoc]
    rfl
  have hNext := createTagForObject_contentAt
    (hOwned.inUse o) hSome
  rw [hIndex] at hNext
  -- the tags of the other objects keep their contents
  have hOthers :
      (∀ p, p ≠ o →
          tags'.contentAt m (tag p) =
            tags.contentAt m (tag p)) ∧
        Created m (l ++ [i]) b (tags'.contentAt m b) := by
    rcases hNext with
      ⟨hUnset, hFree, hContent, hAll⟩ |
        ⟨hOld, hB, hAll, t, hT, hContent⟩
    · have hFresh := hOwned.fresh hFree
      have hL : l = [] := by
        rcases hCreated with ⟨hL, _⟩ | ⟨_, hNot, _⟩
        · exact hL
        · rcases hUnset with h | h
          · exact absurd h (ne_zero_of_not_mem hNot)
          · exact absurd h
              (ne_tagWithNewInfo_of_not_mem hNot)
      refine ⟨fun p _ => hAll _ (hOwned.inUse p), ?_⟩
      refine Or.inr ⟨by simp, hFresh.1, ?_⟩
      rw [hContent, hL]
      rfl
    · rcases hCreated with
        ⟨_, hUnset⟩ | ⟨hNe, hNot, hOldContent⟩
      · rcases hUnset with h | h
        · exact absurd h hOld.1
        · exact absurd h hOld.2
      · have hTagNe :
            ∀ p, p ≠ o → tag p ≠ tag o :=
          fun p hP =>
            hCreating.tag_ne hApart hStarts hNe hNot
              hOldContent hP
        refine ⟨fun p hP =>
          hAll _ (hTagNe p hP) (hOwned.inUse p), ?_⟩
        rw [hT] at hOldContent
        have hSame := Option.some.inj hOldContent
        have hInfos : t.array.infos = l.map startInfo :=
          congrArg Content.infos hSame
        have hStart : t.isStartTag = true :=
          congrArg Content.isStartTag hSame
        rw [hB]
        refine Or.inr ⟨by simp, hNot, ?_⟩
        rw [hContent, extend_infos hStarts hInfos, hStart]
  intro p
  by_cases hP : p = o
  · rw [hP, Function.update_self]
    exact Created.next hAppend hOthers.2 (by simp)
  · have hOld := hCreating p
    rw [indicesIn_cons_of_ne hP] at hOld
    rw [Function.update_of_ne hP, hOthers.1 p hP]
    exact hOld

omit [Fintype O] in
/- No object is tagged, and all are listed. -/
theorem creating_start
    {todo : List (O × Nat)}
    (hTodo : ∀ o, q.starts o = indicesIn todo o)
    (hZero : ∀ o, tag o = 0) :
    q.Creating m todo tag tags := by
  intro o
  rw [hZero o]
  by_cases hNil : indicesIn todo o = []
  · refine Or.inl ⟨hNil, Holds.empty
      ((hTodo o).trans hNil) ?_⟩
    intro c hC
    rw [TagMemory.contentAt, viewAt_zero] at hC
    cases hC
  · exact Or.inr ⟨hNil, [], hTodo o, Or.inl ⟨rfl, Or.inl rfl⟩⟩

omit [Fintype O] in
/- The objects whose tags were reset are listed again. -/
theorem creating_retag
    {listed : List (O × Nat)}
    (hListed : ∀ o, q.starts o = indicesIn listed o)
    (hStarted : q.Started m true tag tags) :
    q.Creating m
      (listed.filter
        (fun p => decide (tag p.1 = m.tagWithNewInfo)))
      tag tags := by
  intro o
  rw [indicesIn_filter (fun o => tag o = m.tagWithNewInfo)]
  have hHolds := hStarted o
  by_cases hNew : tag o = m.tagWithNewInfo
  · rw [if_pos hNew, ← hListed]
    by_cases hNil : q.starts o = []
    · exact Or.inl ⟨hNil,
        fun hNe => absurd hNil hNe, hHolds.fits,
        hHolds.marks⟩
    · exact Or.inr ⟨hNil, [], rfl,
        Or.inl ⟨rfl, Or.inr hNew⟩⟩
  · rw [if_neg hNew]
    exact Or.inl ⟨rfl,
      fun hNe => ⟨(hHolds.tagged hNe).1, fun _ => hNew⟩,
      hHolds.fits, hHolds.marks⟩

omit [Fintype O] [DecidableEq O] in
theorem Started.mono
    {resets : Bool}
    (hStarted : q.Started m false tag tags) :
    q.Started m resets tag tags :=
  fun o => (hStarted o).mono

omit [Fintype O] [DecidableEq O] in
/- The tags are the same, in another set of new ones. -/
theorem Started.sameTags
    {resets : Bool}
    (hStarted : q.Started m resets tag tags)
    (hSame : SameTags tags tags') :
    q.Started m resets tag tags' := by
  intro o
  have hContent :
      tags'.contentAt m (tag o) =
        tags.contentAt m (tag o) := by
    apply viewAt_congr
    rw [hSame]
  rw [hContent]
  exact hStarted o

end Query

end SizesTags

end MemoryAgent
