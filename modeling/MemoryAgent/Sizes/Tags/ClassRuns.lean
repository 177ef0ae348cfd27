import MemoryAgent.Sizes.Tags.ClassTags
import MemoryAgent.Sizes.Tags.StartTags

/-
  Runs of the actions for classes.  The class objects get
  tags with the indices of their class, and the instances
  that are still untagged then get the start infos.

  Key definitions include:
    * `SizesTags.taggedClasses`
    * `SizesTags.Query.ofClasses`
    * `SizesTags.ClassPhase`

  Main results:
    * `SizesTags.Tagging.tagClass`
    * `SizesTags.classPhases`
    * `SizesTags.shallowPhases`
-/

------------------------------------------------------------
-- Listed Classes
------------------------------------------------------------

namespace MemoryAgent

namespace SizesTags

open RecordStore TagMemory TagInfoArray

section Listed

variable {O : Type}
variable {found : O → List O}
variable {classes : List O}

/-
  The calls of `createTag`: for each listed class, one with
  every class object that `tagClassAndItsInheritors` finds.
-/
def taggedClasses
    (found : O → List O)
    (classes : List O) : List (O × Nat) :=
  classes.zipIdx.flatMap
    (fun p => (found p.1).map (fun c => (c, p.2)))

variable [DecidableEq O]
variable {o : O}

/- The indices that the tag of a class object gets. -/
def classIds
    (found : O → List O)
    (classes : List O)
    (o : O) : List Nat :=
  indicesIn (taggedClasses found classes) o

theorem indicesIn_append
    (todo others : List (O × Nat)) :
    indicesIn (todo ++ others) o =
      indicesIn todo o ++ indicesIn others o := by
  unfold indicesIn
  rw [List.filter_append, List.map_append]

theorem indicesIn_map_pair
    {l : List O}
    (hNodup : l.Nodup)
    (i : Nat) :
    indicesIn (l.map (fun c => (c, i))) o =
      if o ∈ l then [i] else [] := by
  induction l with
  | nil => rfl
  | cons c l ih =>
      rcases List.nodup_cons.mp hNodup with ⟨hNot, hTail⟩
      rw [List.map_cons]
      by_cases hEq : o = c
      · subst hEq
        rw [indicesIn_cons_self, ih hTail, if_neg hNot,
          if_pos List.mem_cons_self]
      · rw [indicesIn_cons_of_ne hEq, ih hTail]
        simp only [List.mem_cons, hEq, false_or]

theorem indicesIn_flatMap
    (hFound : ∀ c, (found c).Nodup)
    (l : List (O × Nat)) :
    indicesIn
        (l.flatMap
          (fun p => (found p.1).map (fun c => (c, p.2)))) o =
      (l.filter (fun p => decide (o ∈ found p.1))).map
        Prod.snd := by
  induction l with
  | nil => rfl
  | cons p l ih =>
      rw [List.flatMap_cons, indicesIn_append, ih,
        indicesIn_map_pair (hFound p.1), List.filter_cons]
      by_cases hMem : o ∈ found p.1
      · simp [hMem]
      · simp [hMem]

theorem classIds_increasing
    (hFound : ∀ c, (found c).Nodup)
    (o : O) :
    (classIds found classes o).Pairwise (· < ·) := by
  unfold classIds taggedClasses
  rw [indicesIn_flatMap hFound]
  have hAll :
      (classes.zipIdx.map Prod.snd).Pairwise (· < ·) := by
    rw [List.zipIdx_map_snd]
    exact List.pairwise_lt_range'
  exact hAll.sublist (List.filter_sublist.map Prod.snd)

theorem mem_classIds_iff
    {i : Nat} :
    i ∈ classIds found classes o ↔
      ∃ c, classes[i]? = some c ∧ o ∈ found c := by
  unfold classIds taggedClasses
  rw [mem_indicesIn_iff, List.mem_flatMap]
  constructor
  · rintro ⟨⟨c, j⟩, hAt, hMem⟩
    rcases List.mem_map.mp hMem with ⟨x, hX, hEq⟩
    cases hEq
    exact ⟨c, List.mem_zipIdx_iff_getElem?.mp hAt, hX⟩
  · rintro ⟨c, hAt, hMem⟩
    exact ⟨(c, i), List.mem_zipIdx_iff_getElem?.mpr hAt,
      List.mem_map.mpr ⟨o, hMem, rfl⟩⟩

theorem classIds_lt
    {i : Nat}
    (hMem : i ∈ classIds found classes o) :
    i < classes.length := by
  rcases mem_classIds_iff.mp hMem with ⟨c, hAt, _⟩
  exact (List.getElem?_eq_some_iff.mp hAt).1

/- The positions of a list of classes. -/
def Query.ofClasses
    (h : Heap O)
    (found : O → List O)
    (classes : List O)
    (hFound : ∀ c, (found c).Nodup)
    (hLength : classes.length ≤ 65535) : Query O where
  count := classes.length
  count_lt := length_lt_querySize hLength
  starts := fun o =>
    if classIds found classes o = [] then
      classIds found classes (h.classOf o)
    else
      []
  twins := fun _ _ => False
  starts_increasing := by
    intro o
    split
    · exact classIds_increasing hFound _
    · exact List.Pairwise.nil
  starts_lt := by
    intro o i hMem
    split at hMem
    · exact classIds_lt hMem
    · exact absurd hMem List.not_mem_nil
  starts_twins := fun _ _ _ hTwins => absurd hTwins id

end Listed

------------------------------------------------------------
-- Tagging Classes
------------------------------------------------------------

variable {O : Type}
variable [Fintype O]
variable [DecidableEq O]
variable {m : TagAddresses}
variable {h : Heap O}
variable {ids : O → List Nat}
variable {tag : O → jlong}
variable {tags tags' : TagMemory}
variable {o : O}
variable {a b : jlong}
variable {i : Nat}

/- The class objects tagged so far, with the indices so far. -/
structure Tagging
    (m : TagAddresses)
    (ids : O → List Nat)
    (todo : List (O × Nat))
    (tag : O → jlong)
    (tags : TagMemory) : Prop where
  classes :
    ∃ before, (∀ c, ids c = before c ++ indicesIn todo c) ∧
      ClassTags m before tag tags ∧
      ∀ c, before c = [] → tag c = 0
  distinct :
    ∀ c p, p ≠ c → tag c ≠ 0 → tag p ≠ tag c
  empty :
    ∀ c x, tags.contentAt m (tag c) = some x →
      x = Content.empty

omit [Fintype O] in
theorem Tagging.start
    {todo : List (O × Nat)}
    (hIds : ∀ c, ids c = indicesIn todo c)
    (hZero : ∀ c, tag c = 0) :
    Tagging m ids todo tag tags := by
  refine ⟨⟨fun _ => [], hIds, ⟨?_, ?_⟩, fun c _ => hZero c⟩,
    ?_, ?_⟩
  · exact fun _ hNe => absurd rfl hNe
  · intro c _
    rw [hZero]
    exact plain_zero
  · exact fun c _ _ hNe => absurd (hZero c) hNe
  · intro c x hX
    rw [hZero, TagMemory.contentAt, viewAt_zero] at hX
    cases hX

omit [DecidableEq O] in
/- What `tagClass` writes, for an index of 16 bits. -/
theorem tagClass_cases
    {before : O → List Nat}
    (hOwned : Owned m tag tags)
    (hClass : ClassTags m before tag tags)
    (hLt : i < querySize)
    (hSome : tagClass m i (tag o) tags = some (b, tags')) :
    (before o = [] ∧ b = (tags.new m (.ofClass i)).1 ∧
        tags' = (tags.new m (.ofClass i)).2) ∨
      (before o ≠ [] ∧ b = tag o ∧
        tags.modify m (tag o)
            (fun t =>
              { t with ids := some (before o ++ [i]) }) =
          some tags') := by
  unfold SizesTags.tagClass at hSome
  rw [hClass.tagToClassTagPointer_eq hOwned o] at hSome
  by_cases hNil : before o = []
  · rw [if_pos hNil] at hSome
    cases hSome
    exact Or.inl ⟨hNil, rfl, rfl⟩
  · rw [if_neg hNil, Nat.mod_eq_of_lt hLt] at hSome
    simp only [Option.bind_eq_bind, Option.bind_some,
      Option.bind_eq_some_iff] at hSome
    rcases hSome with ⟨next, hModify, hEq⟩
    cases hEq
    exact Or.inr ⟨hNil, rfl, hModify⟩

omit [DecidableEq O] in
/- The new contents of the tag and of the others. -/
theorem tagClass_contents
    {before : O → List Nat}
    (hOwned : Owned m tag tags)
    (hClass : ClassTags m before tag tags)
    (hDistinct : ∀ c p, p ≠ c → tag c ≠ 0 → tag p ≠ tag c)
    (hEmpty :
      ∀ c x, tags.contentAt m (tag c) = some x →
        x = Content.empty)
    (hLt : i < querySize)
    (hSome : tagClass m i (tag o) tags = some (b, tags')) :
    tags'.classAt m b =
        some (some (before o ++ [i], false)) ∧
      (∀ p, p ≠ o →
        tags'.classAt m (tag p) = tags.classAt m (tag p) ∧
        tags'.contentAt m (tag p) =
          tags.contentAt m (tag p)) ∧
      tags'.contentAt m b = some Content.empty ∧
      ∀ p, p ≠ o → tag p ≠ b := by
  rcases tagClass_cases hOwned hClass hLt hSome with
    ⟨hNil, hB, hTags⟩ | ⟨hNe, hB, hModify⟩
  · have hFree : ¬ tags.InUse m b := by
      rw [hB]
      exact new_not_inUse
    have hFresh := hOwned.fresh hFree
    refine ⟨?_, ?_, ?_, fun p _ => hFresh.2 p⟩
    · rw [hTags, hB, hNil, TagMemory.classAt,
        new_viewAt_self]
      simp [Tag.classView, Tag.ofClass, Tag.initial,
        Nat.mod_eq_of_lt hLt]
    · intro p _
      rw [hTags]
      exact ⟨new_viewAt (hOwned.inUse p),
        new_viewAt (hOwned.inUse p)⟩
    · rw [hTags, hB, TagMemory.contentAt, new_viewAt_self]
      rfl
  · have hZero : tag o ≠ 0 := by
      intro hZero
      apply hNe
      apply hClass.ids_eq_nil
      rw [hZero]
      exact plain_zero
    have hOthers : ∀ p, p ≠ o → tag p ≠ tag o :=
      fun p hP => hDistinct o p hP hZero
    rcases modify_viewAt_self Tag.classView
        hModify hZero with ⟨t, hT, hView⟩
    rcases modify_viewAt_self Tag.content
        hModify hZero with ⟨t', hT', hContent⟩
    have hOld := hClass.tagged o hNe
    have hReferred : t.alreadyReferred = false := by
      unfold TagMemory.classAt viewAt at hOld
      rw [hT] at hOld
      rcases Option.map_eq_some_iff.mp
          (Option.some.inj hOld) with ⟨l, _, hPair⟩
      exact congrArg Prod.snd hPair
    refine ⟨?_, ?_, ?_, ?_⟩
    · rw [hB, TagMemory.classAt, hView]
      simp [Tag.classView, hReferred]
    · intro p hP
      exact ⟨modify_viewAt_of_ne hModify (hOthers p hP),
        modify_viewAt_of_ne hModify (hOthers p hP)⟩
    · rw [hB, TagMemory.contentAt, hContent]
      exact congrArg some
        (hEmpty o t'.content (exists_contentAt hT'))
    · rw [hB]
      exact hOthers

omit [Fintype O] in
theorem ClassTags.append
    {before : O → List Nat}
    (hClass : ClassTags m before tag tags)
    (hSelf :
      tags'.classAt m b =
        some (some (before o ++ [i], false)))
    (hOthers :
      ∀ p, p ≠ o →
        tags'.classAt m (tag p) = tags.classAt m (tag p)) :
    ClassTags m (Function.update before o (before o ++ [i]))
      (Function.update tag o b) tags' := by
  constructor
  · intro c hNe
    by_cases hC : c = o
    · rw [hC, Function.update_self, Function.update_self]
      exact hSelf
    · rw [Function.update_of_ne hC] at hNe ⊢
      rw [Function.update_of_ne hC, hOthers c hC]
      exact hClass.tagged c hNe
  · intro c hNil
    by_cases hC : c = o
    · rw [hC, Function.update_self] at hNil
      exact absurd hNil (by simp)
    · rw [Function.update_of_ne hC] at hNil ⊢
      exact plain_congr (hOthers c hC) (hClass.plain c hNil)

/- The next class object gets the index of its class. -/
theorem Tagging.tagClass
    {todo : List (O × Nat)}
    (hBound : ∀ c, ∀ i ∈ ids c, i < querySize)
    (hOwned : Owned m tag tags)
    (hTagging : Tagging m ids ((o, i) :: todo) tag tags)
    (hSome : tagClass m i (tag o) tags = some (b, tags')) :
    Tagging m ids todo (Function.update tag o b) tags' := by
  rcases hTagging with
    ⟨⟨before, hIds, hClass, hUntagged⟩, hDistinct, hEmpty⟩
  have hSelf := hIds o
  rw [indicesIn_cons_self] at hSelf
  have hLt : i < querySize := by
    apply hBound o
    rw [hSelf]
    exact List.mem_append_right _ List.mem_cons_self
  rcases tagClass_contents hOwned hClass hDistinct hEmpty hLt
      hSome with
    ⟨hClassB, hOthers, hContentB, hNeB⟩
  refine ⟨⟨Function.update before o (before o ++ [i]), ?_,
    hClass.append hClassB (fun p hP => (hOthers p hP).1),
    ?_⟩, ?_, ?_⟩
  · intro c
    by_cases hC : c = o
    · rw [hC, Function.update_self, hSelf, List.append_assoc]
      rfl
    · rw [Function.update_of_ne hC, hIds c,
        indicesIn_cons_of_ne hC]
  · intro c hNil
    by_cases hC : c = o
    · rw [hC, Function.update_self] at hNil
      exact absurd hNil (by simp)
    · rw [Function.update_of_ne hC] at hNil ⊢
      exact hUntagged c hNil
  · intro c p hP hTagged
    by_cases hC : c = o
    · subst hC
      rw [Function.update_self, Function.update_of_ne hP]
      exact hNeB p hP
    · rw [Function.update_of_ne hC] at hTagged ⊢
      by_cases hPo : p = o
      · subst hPo
        rw [Function.update_self]
        exact Ne.symm (hNeB c hC)
      · rw [Function.update_of_ne hPo]
        exact hDistinct c p hP hTagged
  · intro c x hX
    by_cases hC : c = o
    · rw [hC, Function.update_self, hContentB] at hX
      exact (Option.some.inj hX).symm
    · rw [Function.update_of_ne hC, (hOthers c hC).2] at hX
      exact hEmpty c x hX

omit [Fintype O] in
theorem Tagging.classTags
    (hTagging : Tagging m ids [] tag tags) :
    ClassTags m ids tag tags ∧ ∀ c, ids c = [] → tag c = 0 := by
  rcases hTagging.classes with
    ⟨before, hIds, hClass, hUntagged⟩
  have hSame : before = ids := by
    funext c
    rw [hIds c, indicesIn_nil, List.append_nil]
  rw [hSame] at hClass hUntagged
  exact ⟨hClass, hUntagged⟩

------------------------------------------------------------
-- Tagging Instances
------------------------------------------------------------

variable {q : Query O}
variable {resets : Bool}

/- The start infos of instances that are no tagged class. -/
def Query.OfInstances
    (q : Query O)
    (h : Heap O)
    (ids : O → List Nat) : Prop :=
  ∀ o, q.starts o =
    if ids o = [] then ids (h.classOf o) else []

omit [Fintype O] [DecidableEq O] in
/- A new start tag has all the infos of its object. -/
theorem startTag_content
    (hStarts : q.starts o = ids (h.classOf o)) :
    (Tag.startTag (ids (h.classOf o))).content =
      ⟨(q.starts o).map startInfo, true⟩ := by
  have hInfos :
      (filled ((q.starts o).map startInfo)).infos =
        (q.starts o).map startInfo := by
    apply filled_infos
    rw [List.length_map]
    exact q.length_starts_lt o
  rw [← hStarts]
  unfold Tag.content Tag.startTag
  exact congrArg (fun infos => Content.mk infos true) hInfos

/- One object gets a new start tag. -/
theorem newStartTag
    (resets : Bool)
    (hOwned : Owned m tag tags)
    (hClass : ClassTags m ids tag tags)
    (hNil : ids o = [])
    (hStarts : q.starts o = ids (h.classOf o))
    (hNe : ids (h.classOf o) ≠ []) :
    let new := tags.new m (.startTag (ids (h.classOf o)))
    ClassTags m ids (Function.update tag o new.1) new.2 ∧
      (∀ p, new.2.contentAt m (tag p) =
        tags.contentAt m (tag p)) ∧
      q.Holds m resets o new.1
        (new.2.contentAt m new.1) := by
  intro new
  refine ⟨?_, fun p => new_viewAt (hOwned.inUse p), ?_⟩
  · exact hClass.update
      (fun p _ => new_viewAt (hOwned.inUse p))
      (Or.inl ⟨hNil, plain_of_new rfl⟩)
  · refine Query.Holds.created ?_ new_not_reserved ?_
    · rw [hStarts]
      exact hNe
    · rw [TagMemory.contentAt, new_viewAt_self,
        startTag_content hStarts]

/- The objects that the iteration has not reached yet. -/
def Instances
    (q : Query O)
    (m : TagAddresses)
    (ids : O → List Nat)
    (todo : List O)
    (tag : O → jlong)
    (tags : TagMemory) : Prop :=
  ∀ o,
    (o ∈ todo ∧ ids o = [] ∧ tag o = 0) ∨
      q.Holds m false o (tag o) (tags.contentAt m (tag o))

omit [Fintype O] in
theorem Tagging.instances
    {order : List O}
    (hStarts : q.OfInstances h ids)
    (hTagging : Tagging m ids [] tag tags)
    (hOrder : ∀ o, o ∈ order) :
    Instances q m ids order tag tags := by
  intro o
  by_cases hNil : ids o = []
  · exact Or.inl ⟨hOrder o, hNil,
      hTagging.classTags.2 o hNil⟩
  · refine Or.inr (Query.Holds.empty ?_ (hTagging.empty o))
    rw [hStarts, if_neg hNil]

theorem Instances.step
    {todo : List O}
    (hStarts : q.OfInstances h ids)
    (hOwned : Owned m tag tags)
    (hClass : ClassTags m ids tag tags)
    (hInstances : Instances q m ids (o :: todo) tag tags)
    (hSome :
      tagObjectOfTaggedClass m (tag (h.classOf o)) (tag o)
          tags =
        some (b, tags')) :
    ClassTags m ids (Function.update tag o b) tags' ∧
      Instances q m ids todo (Function.update tag o b)
        tags' := by
  have hOld :
      ∀ p, p ≠ o →
        (p ∈ todo ∧ ids p = [] ∧ tag p = 0) ∨
          q.Holds m false p (tag p)
            (tags.contentAt m (tag p)) := by
    intro p hP
    refine (hInstances p).imp_left ?_
    intro hFirst
    exact ⟨(List.mem_cons.mp hFirst.1).resolve_left hP,
      hFirst.2⟩
  have hKeep :
      q.Holds m false o (tag o)
          (tags.contentAt m (tag o)) →
        b = tag o → tags' = tags →
          ClassTags m ids (Function.update tag o b) tags' ∧
            Instances q m ids todo (Function.update tag o b)
              tags' := by
    intro hHolds hB hTags
    rw [hB, hTags, Function.update_eq_self]
    refine ⟨hClass, ?_⟩
    intro p
    by_cases hP : p = o
    · rw [hP]
      exact Or.inr hHolds
    · exact hOld p hP
  unfold SizesTags.tagObjectOfTaggedClass at hSome
  rw [hClass.tagToClassTagPointer_eq hOwned] at hSome
  by_cases hIds : ids (h.classOf o) = []
  · rw [if_pos hIds] at hSome
    cases hSome
    refine hKeep ?_ rfl rfl
    rcases hInstances o with ⟨_, hNil, hZero⟩ | hHolds
    · refine Query.Holds.empty ?_ ?_
      · rw [hStarts, if_pos hNil]
        exact hIds
      · intro c hC
        rw [hZero, TagMemory.contentAt, viewAt_zero] at hC
        cases hC
    · exact hHolds
  · rw [if_neg hIds] at hSome
    simp only [Option.bind_eq_bind, Option.bind_some]
      at hSome
    by_cases hZero : tag o = 0
    · rw [if_pos hZero] at hSome
      have hNil : ids o = [] := by
        apply hClass.ids_eq_nil
        rw [hZero]
        exact plain_zero
      have hSelf : q.starts o = ids (h.classOf o) := by
        rw [hStarts, if_pos hNil]
      rcases newStartTag false hOwned hClass hNil hSelf
          hIds with
        ⟨hClass', hContents, hHolds⟩
      cases hSome
      refine ⟨hClass', ?_⟩
      intro p
      by_cases hP : p = o
      · rw [hP, Function.update_self]
        exact Or.inr hHolds
      · rw [Function.update_of_ne hP]
        have hBefore := hOld p hP
        rw [← hContents p] at hBefore
        exact hBefore
    · rw [if_neg hZero] at hSome
      cases hSome
      refine hKeep ?_ rfl rfl
      rcases hInstances o with ⟨_, _, hTag⟩ | hHolds
      · exact absurd hTag hZero
      · exact hHolds

omit [Fintype O] [DecidableEq O] in
theorem Instances.started
    (hInstances : Instances q m ids [] tag tags) :
    q.Started m false tag tags := by
  intro o
  rcases hInstances o with ⟨hMem, _⟩ | hHolds
  · exact absurd hMem List.not_mem_nil
  · exact hHolds

------------------------------------------------------------
-- Retagging Instances
------------------------------------------------------------

/- The objects that still may carry `TagWithNewInfo`. -/
def Retagging
    (q : Query O)
    (m : TagAddresses)
    (todo : List O)
    (tag : O → jlong)
    (tags : TagMemory) : Prop :=
  ∀ o, q.Holds m (decide (o ∈ todo)) o (tag o)
    (tags.contentAt m (tag o))

omit [Fintype O] [DecidableEq O] in
theorem Query.Holds.settle
    {content : Option Content}
    (hHolds : q.Holds m resets o a content)
    (hNew : a = m.tagWithNewInfo → q.starts o = []) :
    q.Holds m false o a content :=
  ⟨fun hNe => ⟨(hHolds.tagged hNe).1,
      fun _ hEq => hNe (hNew hEq)⟩,
    hHolds.fits, hHolds.marks⟩

omit [Fintype O] in
theorem Query.Started.retagging
    {order : List O}
    (hStarted : q.Started m true tag tags)
    (hOrder : ∀ o, tag o ≠ 0 → o ∈ order) :
    Retagging q m order tag tags := by
  intro o
  by_cases hMem : o ∈ order
  · rw [decide_eq_true hMem]
    exact hStarted o
  · apply Query.Holds.mono
    apply (hStarted o).settle
    intro hNew
    apply absurd (hOrder o _) hMem
    rw [hNew]
    exact (static_ne m).2.1

theorem Retagging.step
    {todo : List O}
    (hStarts : q.OfInstances h ids)
    (hOwned : Owned m tag tags)
    (hClass : ClassTags m ids tag tags)
    (hRetagging : Retagging q m (o :: todo) tag tags)
    (hSome :
      retagStartObjects m (tag (h.classOf o)) (tag o) tags =
        some (b, tags')) :
    ClassTags m ids (Function.update tag o b) tags' ∧
      Retagging q m todo (Function.update tag o b)
        tags' := by
  have hOld :
      ∀ p, p ≠ o →
        q.Holds m (decide (p ∈ todo)) p (tag p)
          (tags.contentAt m (tag p)) := by
    intro p hP
    have hHolds := hRetagging p
    simp only [List.mem_cons, hP, false_or] at hHolds
    exact hHolds
  have hIdsNew : tag o = m.tagWithNewInfo → ids o = [] := by
    intro hNew
    apply hClass.ids_eq_nil
    rw [hNew]
    exact plain_of_static (Or.inr (Or.inl rfl))
  have hKeep :
      (tag o = m.tagWithNewInfo → q.starts o = []) →
        b = tag o → tags' = tags →
          ClassTags m ids (Function.update tag o b) tags' ∧
            Retagging q m todo (Function.update tag o b)
              tags' := by
    intro hNew hB hTags
    rw [hB, hTags, Function.update_eq_self]
    refine ⟨hClass, ?_⟩
    intro p
    by_cases hP : p = o
    · rw [hP]
      exact ((hRetagging o).settle hNew).mono
    · exact hOld p hP
  unfold SizesTags.retagStartObjects at hSome
  rw [hClass.tagToClassTagPointer_eq hOwned] at hSome
  by_cases hIds : ids (h.classOf o) = []
  · rw [if_pos hIds] at hSome
    cases hSome
    refine hKeep ?_ rfl rfl
    intro hNew
    rw [hStarts, if_pos (hIdsNew hNew)]
    exact hIds
  · rw [if_neg hIds] at hSome
    simp only [Option.bind_eq_bind, Option.bind_some]
      at hSome
    by_cases hNew : tag o = m.tagWithNewInfo
    · rw [if_pos hNew] at hSome
      have hNil := hIdsNew hNew
      have hSelf : q.starts o = ids (h.classOf o) := by
        rw [hStarts, if_pos hNil]
      rcases newStartTag (decide (o ∈ todo)) hOwned hClass
          hNil hSelf hIds with
        ⟨hClass', hContents, hHolds⟩
      cases hSome
      refine ⟨⟨hClass'.tagged, hClass'.plain⟩, ?_⟩
      intro p
      by_cases hP : p = o
      · rw [hP, Function.update_self]
        exact hHolds
      · rw [Function.update_of_ne hP]
        have hBefore := hOld p hP
        rw [← hContents p] at hBefore
        exact hBefore
    · rw [if_neg hNew] at hSome
      cases hSome
      exact hKeep (fun h => absurd h hNew) rfl rfl

omit [Fintype O] in
theorem Retagging.started
    (hRetagging : Retagging q m [] tag tags) :
    q.Started m false tag tags := by
  intro o
  have hHolds := hRetagging o
  rw [decide_eq_false List.not_mem_nil] at hHolds
  exact hHolds

------------------------------------------------------------
-- Phases
------------------------------------------------------------

variable {listed : List (O × Nat)}
variable {last : Iteration}

/- The stages after the retagging. -/
def afterRetagging (last : Iteration) : List (Stage O) :=
  [.follow .visitReference, .walk, .iterate last]

/- What holds at each stage of a run for classes. -/
inductive ClassPhase
    (q : Query O)
    (m : TagAddresses)
    (ids : O → List Nat)
    (last : Iteration) :
    Work O → List (Stage O) → (O → jlong) → TagMemory →
      Prop
  | tagClasses {todo : List (O × Nat)} {tag : O → jlong}
      {tags : TagMemory} :
      Tagging m ids todo tag tags →
        ClassPhase q m ids last (.tagClasses todo)
          (.iterate .tagObjectOfTaggedClass ::
            .follow .getTagsWithNewInfo :: .collect ::
            .iterate .retagStartObjects ::
            afterRetagging last) tag tags
  | instances {todo : List O} {tag : O → jlong}
      {tags : TagMemory} :
      ClassTags m ids tag tags →
        Instances q m ids todo tag tags →
          ClassPhase q m ids last
            (.iterate .tagObjectOfTaggedClass todo)
            (.follow .getTagsWithNewInfo :: .collect ::
              .iterate .retagStartObjects ::
              afterRetagging last) tag tags
  | search {pending : List (Report O)} {visited : List O}
      {tag : O → jlong} {tags : TagMemory} :
      ClassTags m ids tag tags →
        q.Started m true tag tags →
          ClassPhase q m ids last
            (.follow .getTagsWithNewInfo pending visited)
            (.collect :: .iterate .retagStartObjects ::
              afterRetagging last) tag tags
  | collected {tag : O → jlong} {tags : TagMemory} :
      ClassTags m ids tag tags →
        q.Started m true tag tags →
          ClassPhase q m ids last (.createTags [])
            (.iterate .retagStartObjects ::
              afterRetagging last) tag tags
  | retag {todo : List O} {tag : O → jlong}
      {tags : TagMemory} :
      ClassTags m ids tag tags →
        Retagging q m todo tag tags →
          ClassPhase q m ids last
            (.iterate .retagStartObjects todo)
            (afterRetagging last) tag tags
  | visit {pending : List (Report O)} {visited : List O}
      {tag : O → jlong} {tags : TagMemory} :
      q.Started m false tag tags →
        ClassPhase q m ids last
          (.follow .visitReference pending visited)
          [.walk, .iterate last] tag tags
  | walk {todo : List O} {pending : List (Report O)}
      {visited : List O} {tag : O → jlong}
      {tags : TagMemory} :
      q.Started m false tag tags →
        ClassPhase q m ids last (.walk todo pending visited)
          [.iterate last] tag tags
  | sum {todo : List O} {tag : O → jlong}
      {tags : TagMemory} :
      q.Started m false tag tags →
        ClassPhase q m ids last (.iterate last todo) [] tag
          tags

theorem classPhases
    {action : Action O}
    (hFirst : action.first = .tagClasses listed)
    (hStages :
      action.stages =
        .iterate .tagObjectOfTaggedClass ::
          .follow .getTagsWithNewInfo :: .collect ::
          .iterate .retagStartObjects :: afterRetagging last)
    (hIds : ∀ c, ids c = indicesIn listed c)
    (hBound : ∀ c, ∀ i ∈ ids c, i < querySize)
    (hStarts : q.OfInstances h ids)
    (hReads : last.Reads m) :
    Phases m h action (ClassPhase q m ids last) where
  start := by
    intro tag tags hZero
    rw [hFirst, hStages]
    exact .tagClasses (Tagging.start hIds hZero)
  createTag := by
    intro o i todo rest tag tags b tags' hPhase _ _
    cases hPhase
  tagClass := by
    intro o i todo rest tag tags b tags' hPhase hOwned hSome
    cases hPhase with
    | tagClasses hTagging =>
        exact .tagClasses
          (hTagging.tagClass hBound hOwned hSome)
  iterate := by
    intro callback o todo rest tag tags b tags' hPhase hOwned
      hSome
    cases hPhase with
    | instances hClass hInstances =>
        rcases hInstances.step hStarts hOwned hClass hSome
          with ⟨hClass', hNext⟩
        exact .instances hClass' hNext
    | retag hClass hRetagging =>
        rcases hRetagging.step hStarts hOwned hClass hSome
          with ⟨hClass', hNext⟩
        exact .retag hClass' hNext
    | sum hStarted =>
        rcases hReads hSome with ⟨hB, hTags⟩
        rw [hB, hTags, Function.update_eq_self]
        exact .sum hStarted
  getTags := by
    intro o args _ _ _ _ rest tag tags b tags' hPhase hOwned
      hTag hReferrer hSome hNext
    cases hPhase with
    | search hClass hStarted =>
        exact .search
          (hClass.getTagsWithNewInfo hOwned hTag hReferrer
            hSome hNext)
          (hStarted.reshaped
            (getTagsWithNewInfo_reshaped hOwned hTag
              hReferrer hSome hNext))
  visit := by
    intro o args _ _ _ _ rest tag tags b tags' hPhase hOwned
      hTag hReferrer hSome hNext
    cases hPhase with
    | visit hStarted =>
        exact .visit (hStarted.reshaped
          (visitReference_reshaped hOwned hTag hReferrer
            hSome hNext))
  spread := by
    intro o args _ _ _ _ _ rest tag tags b tags' hPhase
      hOwned hTag hReferrer hSome hNext
    cases hPhase with
    | walk hStarted =>
        exact .walk (hStarted.reshaped
          (spreadInfo_reshaped hOwned hTag hReferrer hSome
            hNext))
  walk := by
    intro o _ _ _ _ _ rest tag tags tags' hPhase hSame
    cases hPhase with
    | walk hStarted => exact .walk (hStarted.sameTags hSame)
  begin := by
    intro work stage rest data tags order collected next
      hPhase _ hDone hBegin
    cases hPhase with
    | tagClasses hTagging =>
        rw [List.isEmpty_iff.mp hDone] at hTagging
        simp only [SizesTags.begin] at hBegin
        split at hBegin
        · next hOrder =>
            cases hBegin
            refine .instances hTagging.classTags.1
              (hTagging.instances hStarts ?_)
            exact fun o => (hOrder.2 o).mpr rfl
        · cases hBegin
    | instances hClass hInstances =>
        rw [List.isEmpty_iff.mp hDone] at hInstances
        cases hBegin
        exact .search hClass hInstances.started.mono
    | search hClass hStarted =>
        simp only [SizesTags.begin] at hBegin
        split at hBegin
        · cases hBegin
          exact .collected hClass hStarted
        · cases hBegin
    | collected hClass hStarted =>
        simp only [SizesTags.begin] at hBegin
        split at hBegin
        · next hOrder =>
            cases hBegin
            refine .retag hClass (hStarted.retagging ?_)
            intro o hNe
            exact (hOrder.2 o).mpr (decide_eq_true hNe)
        · cases hBegin
    | retag hClass hRetagging =>
        rw [List.isEmpty_iff.mp hDone] at hRetagging
        cases hBegin
        exact .visit hRetagging.started
    | visit hStarted =>
        cases hBegin
        exact .walk hStarted
    | walk hStarted =>
        simp only [SizesTags.begin] at hBegin
        split at hBegin
        · cases hBegin
          exact .sum hStarted
        · cases hBegin

/- What holds in a run of `getShallowSizeByClasses`. -/
inductive ShallowPhase
    (m : TagAddresses)
    (ids : O → List Nat) :
    Work O → List (Stage O) → (O → jlong) → TagMemory →
      Prop
  | tagClasses {todo : List (O × Nat)} {tag : O → jlong}
      {tags : TagMemory} :
      Tagging m ids todo tag tags →
        ShallowPhase m ids (.tagClasses todo)
          [.iterate .calculateShallowSize] tag tags
  | sum {todo : List O} {tag : O → jlong}
      {tags : TagMemory} :
      ClassTags m ids tag tags →
        ShallowPhase m ids
          (.iterate .calculateShallowSize todo) [] tag tags

theorem shallowPhases
    (hIds : ∀ c, ids c = indicesIn listed c)
    (hBound : ∀ c, ∀ i ∈ ids c, i < querySize) :
    Phases m h (.getShallowSizeByClasses listed)
      (ShallowPhase m ids) where
  start := fun hZero => .tagClasses (Tagging.start hIds hZero)
  createTag := by
    intro o i todo rest tag tags b tags' hPhase _ _
    cases hPhase
  tagClass := by
    intro o i todo rest tag tags b tags' hPhase hOwned hSome
    cases hPhase with
    | tagClasses hTagging =>
        exact .tagClasses
          (hTagging.tagClass hBound hOwned hSome)
  iterate := by
    intro callback o todo rest tag tags b tags' hPhase _ hSome
    cases hPhase with
    | sum hClass =>
        rcases reads_calculateShallowSize hSome with
          ⟨hB, hTags⟩
        rw [hB, hTags, Function.update_eq_self]
        exact .sum hClass
  getTags := by
    intro o args _ _ _ _ rest tag tags b tags' hPhase
    cases hPhase
  visit := by
    intro o args _ _ _ _ rest tag tags b tags' hPhase
    cases hPhase
  spread := by
    intro o args _ _ _ _ _ rest tag tags b tags' hPhase
    cases hPhase
  walk := by
    intro o _ _ _ _ _ rest tag tags tags' hPhase
    cases hPhase
  begin := by
    intro work stage rest data tags order collected next
      hPhase _ hDone hBegin
    cases hPhase with
    | tagClasses hTagging =>
        rw [List.isEmpty_iff.mp hDone] at hTagging
        simp only [SizesTags.begin] at hBegin
        split at hBegin
        · cases hBegin
          exact .sum hTagging.classTags.1
        · cases hBegin

end SizesTags

end MemoryAgent
