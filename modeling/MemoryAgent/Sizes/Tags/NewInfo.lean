import MemoryAgent.Sizes.Tags.UninterruptedRuns

/-
  The global set `tagsWithNewInfo` while a run goes on.  Its
  elements are tags that objects carry: each callback that
  takes the tag of an object for another one erases the old
  one.

  Key definitions include:
    * `SizesTags.NoReserved`
    * `SizesTags.Carried`
    * `SizesTags.NewInfo`

  Main results:
    * `SizesTags.visitReference_newInfo`
    * `SizesTags.spreadInfo_newInfo`
    * `SizesTags.Carried.call`
    * `SizesTags.Carried.report`
-/

------------------------------------------------------------
-- Callbacks That Insert Nothing
------------------------------------------------------------

namespace MemoryAgent

namespace SizesTags

open RecordStore TagMemory

section Callbacks

variable {m : TagAddresses}
variable {tags tags' : TagMemory}
variable {args : ReferenceArguments jlong}
variable {a b : jlong}

theorem Handled.newInfo
    {referrerTag : Option jlong}
    {setTagsWithNewInfo : Bool}
    (hHandled :
      Handled m referrerTag setTagsWithNewInfo a tags b
        tags') :
    tags'.tagsWithNewInfo = tags.tagsWithNewInfo := by
  cases hHandled with
  | keep _ => rfl
  | empty _ => rfl
  | reset _ hUnref => exact unref_newInfo hUnref
  | visit _ _ _ _ _ hVisit =>
      exact (visitFromUntaggedReferrer_effect hVisit).1

theorem getTagsWithNewInfo_newInfo
    (hSome :
      getTagsWithNewInfo m args tags = some (b, tags')) :
    tags'.tagsWithNewInfo = tags.tagsWithNewInfo := by
  cases getTagsWithNewInfo_cases hSome with
  | keep => rfl
  | handled hHandled => exact hHandled.newInfo
  | share _ _ hShare hSet =>
      exact (modify_newInfo hSet).trans
        (share_effect hShare).1
  | reset _ hUnref hSet =>
      exact (modify_newInfo hSet).trans
        (unref_newInfo hUnref)
  | merge _ hMerge hSet =>
      exact (modify_newInfo hSet).trans
        (merge_effect hMerge).1
  | refer _ hSet => exact modify_newInfo hSet

theorem createTagForObject_newInfo
    {index : Nat}
    (hSome :
      createTagForObject m index a tags =
        some (b, tags')) :
    tags'.tagsWithNewInfo = tags.tagsWithNewInfo ∧
      (b = a ∨ a ∈ m.reserved) := by
  unfold createTagForObject at hSome
  dsimp only at hSome
  split at hSome
  · simp only [Option.bind_eq_bind,
      Option.bind_eq_some_iff] at hSome
    rcases hSome with ⟨t, _, next, hModify, hEq⟩
    cases hEq
    refine ⟨?_, Or.inl rfl⟩
    exact (modify_newInfo hModify).trans new_newInfo
  · next hOld =>
      cases hSome
      refine ⟨rfl, Or.inr ?_⟩
      by_cases hZero : a = 0
      · exact mem_reserved_of_zero hZero
      · have hNew : a = m.tagWithNewInfo := by
          by_contra hNe
          exact hOld ⟨hZero, hNe⟩
        exact mem_reserved_of_reset hNew

theorem tagClass_newInfo
    {index : Nat}
    (hSome : tagClass m index a tags = some (b, tags')) :
    tags'.tagsWithNewInfo = tags.tagsWithNewInfo := by
  unfold tagClass at hSome
  simp only [Option.bind_eq_bind, Option.bind_eq_some_iff]
    at hSome
  rcases hSome with ⟨classTag, _, hBranch⟩
  cases classTag with
  | none =>
      cases hBranch
      rfl
  | some ids =>
      rcases Option.bind_eq_some_iff.mp hBranch with
        ⟨next, hModify, hEq⟩
      cases hEq
      exact modify_newInfo hModify

theorem clearTag_newInfo
    (hSome : clearTag m a tags = some (b, tags')) :
    tags'.tagsWithNewInfo = tags.tagsWithNewInfo := by
  unfold clearTag at hSome
  split at hSome
  · cases hSome
    rfl
  · rcases Option.bind_eq_some_iff.mp hSome with
      ⟨next, hUnref, hEq⟩
    cases hEq
    exact unref_newInfo hUnref

/- The tag is kept, or it was 0 and the set is the same. -/
theorem tagObjectOfTaggedClass_newInfo
    {classTag : jlong}
    (hSome :
      tagObjectOfTaggedClass m classTag a tags =
        some (b, tags')) :
    tags'.tagsWithNewInfo = tags.tagsWithNewInfo ∧
      (b = a ∨ a = 0) := by
  unfold tagObjectOfTaggedClass at hSome
  rcases Option.bind_eq_some_iff.mp hSome with
    ⟨pClassTag, _, hBranch⟩
  cases pClassTag with
  | none =>
      cases hBranch
      exact ⟨rfl, Or.inl rfl⟩
  | some ids =>
      dsimp only at hBranch
      split at hBranch
      · next hZero =>
          cases hBranch
          exact ⟨rfl, Or.inr hZero⟩
      · cases hBranch
        exact ⟨rfl, Or.inl rfl⟩

------------------------------------------------------------
-- Callbacks That Insert or Erase
------------------------------------------------------------

/- Static tags and 0 are not in the set. -/
def NoReserved
    (m : TagAddresses)
    (tags : TagMemory) : Prop :=
  ∀ a ∈ tags.tagsWithNewInfo, a ∉ m.reserved

theorem retagStartObjects_newInfo
    {classTag : jlong}
    (hSome :
      retagStartObjects m classTag a tags =
        some (b, tags')) :
    (b = a ∧
        tags'.tagsWithNewInfo = tags.tagsWithNewInfo) ∨
      (a = m.tagWithNewInfo ∧ b ∉ m.reserved ∧
        tags'.tagsWithNewInfo =
          insert b tags.tagsWithNewInfo) := by
  unfold retagStartObjects at hSome
  rcases Option.bind_eq_some_iff.mp hSome with
    ⟨pClassTag, _, hBranch⟩
  cases pClassTag with
  | none =>
      cases hBranch
      exact Or.inl ⟨rfl, rfl⟩
  | some ids =>
      dsimp only at hBranch
      split at hBranch
      · next hNew =>
          cases hBranch
          exact Or.inr ⟨hNew, new_not_reserved, rfl⟩
      · cases hBranch
        exact Or.inl ⟨rfl, rfl⟩

/- The tag of an object that may have infos. -/
theorem Informed.not_reserved
    {O : Type}
    [Fintype O]
    {tag : O → jlong}
    {r : jlong}
    (hOwned : Owned m tag tags)
    (hReferrer :
      ∀ a, args.referrerTag = some a → ∃ p, tag p = a)
    (hInformed : Informed m args.referrerTag r) :
    r ∉ m.reserved := by
  rcases hInformed with ⟨hArg, hEmpty, hNew, hZero⟩
  rcases hReferrer r hArg with ⟨p, hP⟩
  subst hP
  rcases hOwned.cases p with h | h | h | h
  · exact absurd h hZero
  · exact absurd h hEmpty
  · exact absurd h hNew
  · exact not_mem_reserved_of_owners h

/-
  The referee keeps its tag, gets its first one, or gets one
  that takes the place of the old one in the set.
-/
theorem visitReference_newInfo
    {O : Type}
    [Fintype O]
    {tag : O → jlong}
    (hOwned : Owned m tag tags)
    (hReferrer :
      ∀ a, args.referrerTag = some a → ∃ p, tag p = a)
    (hNoReserved : NoReserved m tags)
    (hSome :
      SizesTags.visitReference m args tags =
        some (b, tags')) :
    ((b = args.tag ∨ args.tag = 0) ∧
        tags'.tagsWithNewInfo = tags.tagsWithNewInfo) ∨
      (args.tag ≠ 0 ∧ b ≠ args.tag ∧ b ∉ m.reserved ∧
        tags'.tagsWithNewInfo =
          insert b
            (tags.tagsWithNewInfo.erase args.tag)) := by
  cases visitReference_cases hSome with
  | jni _ => exact Or.inl ⟨Or.inl rfl, rfl⟩
  | handled _ hHandled =>
      have hSame := hHandled.newInfo
      cases hHandled with
      | keep _ => exact Or.inl ⟨Or.inl rfl, hSame⟩
      | empty hZero => exact Or.inl ⟨Or.inr hZero, hSame⟩
      | reset hTrue _ => cases hTrue
      | visit _ _ _ _ _ _ =>
          exact Or.inl ⟨Or.inl rfl, hSame⟩
  | share _ hZero hShare =>
      exact Or.inl ⟨Or.inr hZero, (share_effect hShare).1⟩
  | retag hInformed hNew hShare =>
      have hEffect := share_effect hShare
      have hNot : b ∉ m.reserved := by
        rcases hEffect.2.1 with hSame | hFresh
        · rw [hSame]
          exact hInformed.not_reserved hOwned hReferrer
        · exact fun hMem => hFresh (Or.inl hMem)
      have hOld : args.tag ∉ tags.tagsWithNewInfo :=
        fun hMem =>
          hNoReserved _ hMem (mem_reserved_of_reset hNew)
      refine Or.inr ⟨?_, ?_, hNot, ?_⟩
      · rw [hNew]
        exact (static_ne m).2.1
      · rw [hNew]
        exact ne_tagWithNewInfo_of_not_mem hNot
      · rw [Finset.erase_eq_of_notMem hOld, ← hEffect.1]
        rfl
  | merge _ hMerge =>
      have hEffect := merge_effect hMerge
      rcases merge_cases hMerge with ⟨t, r, hT, _, _, _⟩
      refine Or.inr ⟨?_, ?_,
        fun hMem => hEffect.2.1 (Or.inl hMem), ?_⟩
      · intro hZero
        rw [hZero] at hT
        rw [dereference_zero] at hT
        cases hT
      · intro hEq
        apply hEffect.2.1
        rw [hEq]
        exact InUse.of_dereference hT
      · exact congrArg (insert b) hEffect.1
  | keep _ => exact Or.inl ⟨Or.inl rfl, rfl⟩

/- A reference erases the tag of its referee, or nothing. -/
theorem spreadInfo_newInfo
    (hSome :
      SizesTags.spreadInfo m args tags =
        some (b, tags')) :
    (b = args.tag ∧
        tags'.tagsWithNewInfo = tags.tagsWithNewInfo ∧
        (args.refKind.isJni = true ∨ args.tag = 0 ∨
          args.referrerTag = some 0)) ∨
      (tags'.tagsWithNewInfo =
          tags.tagsWithNewInfo.erase args.tag ∧
        args.refKind.isJni = false ∧
        args.referrerTag ≠ some 0) := by
  unfold SizesTags.spreadInfo at hSome
  split at hSome
  · next hSkip =>
      cases hSome
      exact Or.inl ⟨rfl, rfl, hSkip.imp_right Or.inl⟩
  · next hGoesOn =>
      rw [not_or, Bool.not_eq_true] at hGoesOn
      rcases Option.bind_eq_some_iff.mp hSome with
        ⟨r, hR, hBranch⟩
      split at hBranch
      · next hZero =>
          cases hBranch
          refine Or.inl ⟨rfl, rfl, Or.inr (Or.inr ?_)⟩
          rw [hR, hZero]
      · next hZero =>
          refine Or.inr ⟨?_, hGoesOn.1, ?_⟩
          · dsimp only at hBranch
            split at hBranch
            · cases hBranch
              rfl
            · rcases Option.bind_eq_some_iff.mp hBranch with
                ⟨merged, _, hMerged⟩
              split at hMerged
              · exact (merge_effect hMerged).1
              · cases hMerged
                rfl
          · rw [hR]
            exact fun hEq => hZero (Option.some.inj hEq)

end Callbacks

------------------------------------------------------------
-- Carried Tags
------------------------------------------------------------

section Carried

variable {O : Type}
variable {m : TagAddresses}
variable {tag : O → jlong}
variable {tags tags' : TagMemory}
variable {args : ReferenceArguments jlong}
variable {o : O}
variable {b : jlong}

/- Each tag in the set is one that an object carries. -/
def Carried
    (m : TagAddresses)
    (tag : O → jlong)
    (tags : TagMemory) : Prop :=
  ∀ a ∈ tags.tagsWithNewInfo,
    a ∉ m.reserved ∧ ∃ o, tag o = a

theorem Carried.of_empty
    (hEmpty : tags.tagsWithNewInfo = ∅) :
    Carried m tag tags := by
  intro a hMem
  rw [hEmpty] at hMem
  exact absurd hMem (Finset.notMem_empty a)

theorem Carried.subset
    (hCarried : Carried m tag tags)
    (hSubset :
      tags'.tagsWithNewInfo ⊆ tags.tagsWithNewInfo) :
    Carried m tag tags' :=
  fun a hMem => hCarried a (hSubset hMem)

variable [DecidableEq O]

/-
  An object gives up its tag, which the set must give up
  too, for a tag that may be put into the set.
-/
theorem Carried.update
    (hCarried : Carried m tag tags)
    (hNext :
      ∀ a ∈ tags'.tagsWithNewInfo,
        (a = b ∧ b ∉ m.reserved) ∨
          (a ∈ tags.tagsWithNewInfo ∧ a ≠ tag o)) :
    Carried m (Function.update tag o b) tags' := by
  intro a hMem
  rcases hNext a hMem with ⟨hEq, hNot⟩ | ⟨hOld, hNe⟩
  · rw [hEq]
    exact ⟨hNot, o, Function.update_self o b tag⟩
  · rcases hCarried a hOld with ⟨hNot, p, hP⟩
    have hDiff : p ≠ o := by
      intro hEq
      rw [hEq] at hP
      exact hNe hP.symm
    exact ⟨hNot, p,
      (Function.update_of_ne hDiff b tag).trans hP⟩

/- A tag that is static or 0 is not in the set. -/
theorem Carried.update_reserved
    (hCarried : Carried m tag tags)
    (hOld : tag o ∈ m.reserved)
    (hNext :
      ∀ a ∈ tags'.tagsWithNewInfo,
        (a = b ∧ b ∉ m.reserved) ∨
          a ∈ tags.tagsWithNewInfo) :
    Carried m (Function.update tag o b) tags' := by
  apply hCarried.update
  intro a hMem
  refine (hNext a hMem).imp_right ?_
  intro hIn
  refine ⟨hIn, ?_⟩
  intro hEq
  rw [hEq] at hIn
  exact (hCarried _ hIn).1 hOld

theorem Carried.keep
    (hCarried : Carried m tag tags)
    (hSubset :
      tags'.tagsWithNewInfo ⊆ tags.tagsWithNewInfo) :
    Carried m (Function.update tag o (tag o)) tags' := by
  rw [Function.update_eq_self]
  exact hCarried.subset hSubset

theorem Carried.visitReference
    [Fintype O]
    (hCarried : Carried m tag tags)
    (hOwned : Owned m tag tags)
    (hTag : args.tag = tag o)
    (hReferrer :
      ∀ a, args.referrerTag = some a → ∃ p, tag p = a)
    (hSome :
      SizesTags.visitReference m args tags =
        some (b, tags')) :
    Carried m (Function.update tag o b) tags' := by
  have hNoReserved : NoReserved m tags :=
    fun a hMem => (hCarried a hMem).1
  rcases visitReference_newInfo hOwned hReferrer hNoReserved
      hSome with
    ⟨hKeep | hZero, hSame⟩ | ⟨_, _, hNot, hNew⟩
  · rw [hKeep, hTag]
    exact hCarried.keep (subset_of_eq hSame)
  · rw [hTag] at hZero
    apply hCarried.update_reserved
    · exact mem_reserved_of_zero hZero
    · intro a hMem
      rw [hSame] at hMem
      exact Or.inr hMem
  · apply hCarried.update
    intro a hMem
    rw [hNew, hTag] at hMem
    rcases Finset.mem_insert.mp hMem with hEq | hOld
    · exact Or.inl ⟨hEq, hNot⟩
    · rcases Finset.mem_erase.mp hOld with ⟨hNe, hIn⟩
      exact Or.inr ⟨hIn, hNe⟩

theorem Carried.spreadInfo
    (hCarried : Carried m tag tags)
    (hTag : args.tag = tag o)
    (hSome :
      SizesTags.spreadInfo m args tags =
        some (b, tags')) :
    Carried m (Function.update tag o b) tags' := by
  rcases spreadInfo_newInfo hSome with
    ⟨hKeep, hSame, _⟩ | ⟨hErased, _⟩
  · rw [hKeep, hTag]
    exact hCarried.keep (subset_of_eq hSame)
  · apply hCarried.update
    intro a hMem
    rw [hErased, hTag] at hMem
    rcases Finset.mem_erase.mp hMem with ⟨hNe, hIn⟩
    exact Or.inr ⟨hIn, hNe⟩

theorem Carried.createTagForObject
    {index : Nat}
    (hCarried : Carried m tag tags)
    (hSome :
      SizesTags.createTagForObject m index (tag o) tags =
        some (b, tags')) :
    Carried m (Function.update tag o b) tags' := by
  rcases createTagForObject_newInfo hSome with
    ⟨hSame, hKeep | hOld⟩
  · rw [hKeep]
    exact hCarried.keep (subset_of_eq hSame)
  · apply hCarried.update_reserved hOld
    intro a hMem
    rw [hSame] at hMem
    exact Or.inr hMem

theorem Carried.retagStartObjects
    {classTag : jlong}
    (hCarried : Carried m tag tags)
    (hSome :
      SizesTags.retagStartObjects m classTag (tag o) tags =
        some (b, tags')) :
    Carried m (Function.update tag o b) tags' := by
  rcases retagStartObjects_newInfo hSome with
    ⟨hKeep, hSame⟩ | ⟨hNew, hNot, hInsert⟩
  · rw [hKeep]
    exact hCarried.keep (subset_of_eq hSame)
  · apply hCarried.update_reserved
    · exact mem_reserved_of_reset hNew
    · intro a hMem
      rw [hInsert] at hMem
      exact (Finset.mem_insert.mp hMem).imp_left
        (fun hEq => ⟨hEq, hNot⟩)

theorem Carried.iterate
    (callback : Iteration)
    {classTag : jlong}
    (hCarried : Carried m tag tags)
    (hSome :
      callback.run m classTag (tag o) tags =
        some (b, tags')) :
    Carried m (Function.update tag o b) tags' := by
  cases callback with
  | tagObjectOfTaggedClass =>
      rcases tagObjectOfTaggedClass_newInfo hSome with
        ⟨hSame, hKeep | hZero⟩
      · rw [hKeep]
        exact hCarried.keep (subset_of_eq hSame)
      · apply hCarried.update_reserved
        · exact mem_reserved_of_zero hZero
        · intro a hMem
          rw [hSame] at hMem
          exact Or.inr hMem
  | retagStartObjects =>
      exact hCarried.retagStartObjects hSome
  | visitObject =>
      rcases Option.map_eq_some_iff.mp hSome with
        ⟨_, _, hEq⟩
      cases hEq
      exact hCarried.keep (Finset.Subset.refl _)
  | visitObjectForShallowAndRetainedSize =>
      rcases Option.map_eq_some_iff.mp hSome with
        ⟨_, _, hEq⟩
      cases hEq
      exact hCarried.keep (Finset.Subset.refl _)
  | calculateShallowSize =>
      rcases Option.map_eq_some_iff.mp hSome with
        ⟨_, _, hEq⟩
      cases hEq
      exact hCarried.keep (Finset.Subset.refl _)

end Carried

------------------------------------------------------------
-- Runs
------------------------------------------------------------

section Runs

variable {O : Type}
variable {m : TagAddresses}
variable {tag : O → jlong}
variable {tags tags' : TagMemory}

/- What holds of the set at a point of the machine. -/
def NewInfo
    (m : TagAddresses)
    (tag : O → jlong)
    (tags : TagMemory) : Point O → Prop
| .running _ _ _ => Carried m tag tags
| _ => tags.tagsWithNewInfo = ∅

/- Nothing was inserted. -/
def NoNewInfo
    (_ : O → jlong)
    (tags : TagMemory) : Prop :=
  tags.tagsWithNewInfo = ∅

variable [DecidableEq O]
variable {data : Tagged O jlong (Option TagMemory)}
variable {h : Heap O}
variable {o : O}
variable [Fintype O]

theorem noNewInfo_stable
    (m : TagAddresses) :
    EarlyStable m (NoNewInfo : (O → jlong) → _) where
  createTagForObject := fun _ hNone hSome =>
    (createTagForObject_newInfo hSome).1.trans hNone
  tagClass := fun _ hNone hSome =>
    (tagClass_newInfo hSome).trans hNone
  tagObjectOfTaggedClass := fun _ hNone hSome =>
    (tagObjectOfTaggedClass_newInfo hSome).1.trans hNone
  getTagsWithNewInfo := fun _ hNone _ _ hSome =>
    (getTagsWithNewInfo_newInfo hSome).trans hNone

variable {work : Work O}
variable {rest : List (Stage O)}
variable {objects objects' : List O}
variable {next : Tagged O jlong (Option TagMemory) × Work O}

omit [Fintype O] in
/- The next call of a loop or an iteration. -/
theorem Carried.call
    (hUser : data.user = some tags)
    (hCarried : Carried m data.tag tags)
    (hEarly :
      WhileEarly NoNewInfo data.tag tags
        (.running work rest objects))
    (hCall : SizesTags.call m h data work = some next)
    (hNext : next.1.user = some tags') :
    Carried m next.1.tag tags' := by
  rcases next with ⟨⟨tag', user⟩, work'⟩
  have hCalled :
      Called m h data.tag tags work tag' tags' work' :=
    called_of_call hUser hCall hNext
  cases hCalled with
  | createTag hSome => exact hCarried.createTagForObject hSome
  | tagClass hSome =>
      exact Carried.of_empty
        ((tagClass_newInfo hSome).trans
          (hEarly.2.2 (Or.inl trivial)))
  | iterate hSome => exact hCarried.iterate _ hSome
  | walk => exact hCarried.subset (Finset.erase_subset _ _)
  | skip _ => exact hCarried

theorem Carried.report
    {r : Report O}
    (hUser : data.user = some tags)
    (hOwned : Owned m data.tag tags)
    (hCarried : Carried m data.tag tags)
    (hEarly :
      WhileEarly NoNewInfo data.tag tags
        (.running work rest objects))
    (hReport :
      SizesTags.report m h r data work = some next)
    (hNext : next.1.user = some tags') :
    Carried m next.1.tag tags' := by
  rcases next with ⟨⟨tag', user⟩, work'⟩
  have hReported :
      Reported m (h.arguments r data) data.tag tags r.referee
        work tag' tags' work' :=
    reported_of_report hUser hReport hNext
  cases hReported with
  | getTags hSome =>
      exact Carried.of_empty
        ((getTagsWithNewInfo_newInfo hSome).trans
          (hEarly.2.2 (Or.inl rfl)))
  | visit hSome =>
      exact hCarried.visitReference hOwned (arguments_tag r)
        (exists_referrer r) hSome
  | spread hSome =>
      exact hCarried.spreadInfo (arguments_tag r) hSome

end Runs

end SizesTags

end MemoryAgent
