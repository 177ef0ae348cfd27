import MemoryAgent.Sizes.Tags.Contents

/-
  The tags of class objects: they list the indices of their
  class, and the first traversal neither replaces them nor
  lets them refer to others.

  Key definitions include:
    * `SizesTags.Tag.classView`
    * `SizesTags.ClassTags`

  Main results:
    * `SizesTags.ClassTags.tagToClassTagPointer_eq`
    * `SizesTags.ClassTags.getTagsWithNewInfo`
-/

------------------------------------------------------------
-- Class Tags
------------------------------------------------------------

namespace MemoryAgent

namespace SizesTags

open RecordStore TagMemory

/- The indices of a class tag, and if it was a referrer. -/
def Tag.classView (t : Tag) : Option (List Nat × Bool) :=
  t.ids.map (fun ids => (ids, t.alreadyReferred))

abbrev TagMemory.classAt
    (m : TagAddresses)
    (tags : TagMemory)
    (a : jlong) : Option (Option (List Nat × Bool)) :=
  tags.viewAt Tag.classView m a

section Operations

variable {m : TagAddresses}
variable {tags tags' : TagMemory}
variable {a b r : jlong}

theorem classView_uncounted :
    Uncounted Tag.classView :=
  fun _ _ => rfl

/- No class tag is at the address. -/
def Plain
    (m : TagAddresses)
    (tags : TagMemory)
    (a : jlong) : Prop :=
  ∀ x, tags.classAt m a = some x → x = none

theorem plain_of_static
    (hStatic : m.isStatic a) :
    Plain m tags a := by
  intro x hX
  rw [TagMemory.classAt, viewAt_of_static hStatic] at hX
  exact (Option.some.inj hX).symm

theorem plain_zero :
    Plain m tags 0 := by
  intro x hX
  rw [TagMemory.classAt, viewAt_zero] at hX
  cases hX

theorem plain_congr
    (hSame : tags'.classAt m a = tags.classAt m a)
    (hPlain : Plain m tags a) :
    Plain m tags' a := by
  intro x hX
  rw [hSame] at hX
  exact hPlain x hX

theorem plain_of_new
    {t : Tag}
    (hIds : t.ids = none) :
    Plain m (tags.new m t).2 (tags.new m t).1 := by
  intro x hX
  rw [TagMemory.classAt, new_viewAt_self] at hX
  rw [← Option.some.inj hX]
  unfold Tag.classView
  rw [hIds]
  rfl

/- Only the class tags remember to have been referrers. -/
theorem setAlreadyReferred_classAt
    (hPlain : Plain m tags r)
    (hSet : tags.setAlreadyReferred m r = some tags')
    (c : jlong) :
    tags'.classAt m c = tags.classAt m c := by
  by_cases hZero : r = 0
  · rcases modify_some hSet with ⟨hStatic, t, hGet, _⟩
    by_cases hC : c = 0
    · rw [hC, TagMemory.classAt, viewAt_zero,
        TagMemory.classAt, viewAt_zero]
    · apply modify_viewAt_of_ne hSet
      rw [hZero]
      exact hC
  · apply modify_viewAt hSet
    intro t hGet
    rcases modify_some hSet with ⟨hStatic, _, _, _⟩
    have hAt : tags.classAt m r = some t.classView := by
      unfold TagMemory.classAt viewAt dereference
      rw [if_neg hStatic, if_neg hZero, hGet]
      rfl
    have hNone := hPlain _ hAt
    have hIds : t.ids = none := by
      unfold Tag.classView at hNone
      exact Option.map_eq_none_iff.mp hNone
    unfold Tag.classView
    rw [hIds]
    rfl

theorem visitFromUntaggedReferrer_classAt
    (hVisit :
      tags.visitFromUntaggedReferrer m a = some tags')
    (c : jlong) :
    tags'.classAt m c = tags.classAt m c := by
  rcases visitFromUntaggedReferrer_cases hVisit with
    ⟨t, _, ⟨_, hSame⟩ | ⟨_, hModify⟩⟩
  · rw [hSame]
  · exact modify_viewAt hModify (fun _ _ => rfl) c

theorem share_classAt
    (hPlain : Plain m tags a)
    (hShare : tags.share m a = some (b, tags')) :
    Plain m tags' b ∧
      ∀ c, tags.InUse m c →
        tags'.classAt m c = tags.classAt m c := by
  rcases share_cases hShare with
    ⟨t, _, ⟨_, hNew⟩ | ⟨_, hB, hRef⟩⟩
  · cases hNew
    exact ⟨plain_of_new rfl, fun c hInUse => new_viewAt hInUse⟩
  · have hSame :
        ∀ c, tags'.classAt m c = tags.classAt m c :=
      modify_viewAt hRef (fun _ _ => rfl)
    rw [hB]
    exact ⟨plain_congr (hSame a) hPlain, fun c _ => hSame c⟩

theorem merge_classAt
    (hMerge : tags.merge m a r = some (b, tags')) :
    (tags'.InUse m b → Plain m tags' b) ∧
      ∀ c, tags.InUse m c → tags'.InUse m c →
        tags'.classAt m c = tags.classAt m c := by
  rcases merge_cases hMerge with ⟨t, u, _, _, hB, hUnref⟩
  rw [hB]
  constructor
  · intro hInUse
    exact plain_congr
      (unref_viewAt classView_uncounted hUnref hInUse)
      (plain_of_new rfl)
  · intro c hInUse hInUse'
    exact (unref_viewAt classView_uncounted hUnref
      hInUse').trans (new_viewAt hInUse)

/- A class tag that was no referrer is not reset. -/
theorem untagged_of_class
    {t : Tag}
    (hZero : a ≠ 0)
    (hT : tags.dereference m a = some t)
    (hReferred : t.alreadyReferred = false)
    {handled setTagsWithNewInfo : Bool}
    (hSome :
      handleReferrersWithNoInfo.untagged m a
          setTagsWithNewInfo tags =
        some (handled, b, tags')) :
    b = a := by
  unfold handleReferrersWithNoInfo.untagged at hSome
  rw [if_neg hZero] at hSome
  split at hSome
  · cases hSome
    rfl
  · rw [hT] at hSome
    simp only [Option.bind_eq_bind, Option.bind_some,
      hReferred, Bool.false_eq_true, and_false, if_false,
      Option.bind_eq_some_iff] at hSome
    rcases hSome with ⟨next, _, hPair⟩
    cases hPair
    rfl

theorem handleReferrersWithNoInfo_of_class
    {t : Tag}
    {referrerTag : Option jlong}
    (hZero : a ≠ 0)
    (hT : tags.dereference m a = some t)
    (hReferred : t.alreadyReferred = false)
    {handled setTagsWithNewInfo : Bool}
    (hSome :
      SizesTags.handleReferrersWithNoInfo m referrerTag a
          setTagsWithNewInfo tags =
        some (handled, b, tags')) :
    b = a := by
  unfold SizesTags.handleReferrersWithNoInfo at hSome
  split at hSome
  · exact untagged_of_class hZero hT hReferred hSome
  · split at hSome
    · exact untagged_of_class hZero hT hReferred hSome
    · split at hSome
      · cases hSome
        rfl
      · rcases Option.bind_eq_some_iff.mp hSome with
          ⟨classTag, _, hPair⟩
        exact (congrArg (fun p => p.2.1)
          (Option.some.inj hPair)).symm

/- A class tag that was no referrer stays where it is. -/
theorem getTagsWithNewInfo_of_class
    {args : ReferenceArguments jlong}
    {ids : List Nat}
    (hClass :
      tags.classAt m args.tag = some (some (ids, false)))
    (hSome :
      SizesTags.getTagsWithNewInfo m args tags =
        some (b, tags')) :
    b = args.tag := by
  rcases Option.map_eq_some_iff.mp hClass with
    ⟨t, hT, hView⟩
  unfold Tag.classView at hView
  rcases Option.map_eq_some_iff.mp hView with
    ⟨l, hIds, hPair⟩
  have hReferred : t.alreadyReferred = false :=
    congrArg Prod.snd hPair
  have hZero : args.tag ≠ 0 := by
    intro hZero
    rw [hZero, TagMemory.classAt, viewAt_zero] at hClass
    cases hClass
  have hPointer :
      tags.tagToClassTagPointer m args.tag = some (some l) := by
    unfold TagMemory.tagToClassTagPointer
    rw [if_neg hZero, hT, ← hIds]
    rfl
  unfold SizesTags.getTagsWithNewInfo at hSome
  split at hSome
  · cases hSome
    rfl
  · rcases Option.bind_eq_some_iff.mp hSome with
      ⟨⟨handled, b₁, tags₁⟩, hHandle, hBranch⟩
    rcases handleReferrersWithNoInfo_cases hHandle with
      ⟨hEq, _⟩ | ⟨hEq, hB, hTags, r, hInformed⟩
    · subst hEq
      cases hBranch
      exact handleReferrersWithNoInfo_of_class hZero hT
        hReferred hHandle
    · subst hEq hB hTags
      simp only [hInformed.1, Bool.false_eq_true, if_false,
        Option.bind_eq_bind, Option.bind_some, if_neg hZero,
        tagsAreValidForMerge, hPointer, Option.isSome_some,
        true_or, if_true] at hBranch
      rcases Option.bind_eq_some_iff.mp hBranch with
        ⟨next, _, hPair⟩
      cases hPair
      rfl

/- A class tag gives nothing to other objects. -/
theorem getTagsWithNewInfo_from_class
    {args : ReferenceArguments jlong}
    {x : List Nat × Bool}
    (hReferrer : args.referrerTag = some r)
    (hClass : tags.classAt m r = some (some x))
    (hSome :
      SizesTags.getTagsWithNewInfo m args tags =
        some (b, tags')) :
    b = args.tag ∧ tags' = tags := by
  rcases Option.map_eq_some_iff.mp hClass with
    ⟨t, hT, hView⟩
  rcases Option.map_eq_some_iff.mp hView with
    ⟨l, hIds, _⟩
  have hZero : r ≠ 0 := by
    intro hZero
    rw [hZero, TagMemory.classAt, viewAt_zero] at hClass
    cases hClass
  have hEmpty : r ≠ m.emptyTag := by
    intro hEmpty
    have hPlain : Plain m tags r :=
      plain_of_static (Or.inl hEmpty)
    cases hPlain _ hClass
  have hPointer :
      tags.tagToClassTagPointer m r = some (some l) := by
    unfold TagMemory.tagToClassTagPointer
    rw [if_neg hZero, hT, ← hIds]
    rfl
  unfold SizesTags.getTagsWithNewInfo at hSome
  split at hSome
  · cases hSome
    exact ⟨rfl, rfl⟩
  · have hHandled :
        SizesTags.handleReferrersWithNoInfo m
            args.referrerTag args.tag true tags =
          some (true, args.tag, tags) := by
      unfold SizesTags.handleReferrersWithNoInfo
      rw [hReferrer]
      dsimp only
      rw [if_neg hEmpty]
      split
      · rfl
      · rw [hPointer]
        rfl
    rw [hHandled] at hSome
    cases hSome
    exact ⟨rfl, rfl⟩

end Operations

------------------------------------------------------------
-- Tagged Classes
------------------------------------------------------------

variable {O : Type}
variable {m : TagAddresses}
variable {ids : O → List Nat}
variable {tag : O → jlong}
variable {tags tags' : TagMemory}
variable {o : O}
variable {b : jlong}

/- The class objects with indices carry them in their tags. -/
structure ClassTags
    (m : TagAddresses)
    (ids : O → List Nat)
    (tag : O → jlong)
    (tags : TagMemory) : Prop where
  tagged :
    ∀ o, ids o ≠ [] →
      tags.classAt m (tag o) = some (some (ids o, false))
  plain : ∀ o, ids o = [] → Plain m tags (tag o)

theorem ClassTags.ids_eq_nil
    (hClass : ClassTags m ids tag tags)
    (hPlain : Plain m tags (tag o)) :
    ids o = [] := by
  by_contra hNe
  have hNone := hPlain _ (hClass.tagged o hNe)
  cases hNone

theorem ClassTags.tagToClassTagPointer_eq
    [Fintype O]
    (hOwned : Owned m tag tags)
    (hClass : ClassTags m ids tag tags)
    (o : O) :
    tags.tagToClassTagPointer m (tag o) =
      some (if ids o = [] then none else some (ids o)) := by
  by_cases hZero : tag o = 0
  · have hPlain : Plain m tags (tag o) := by
      rw [hZero]
      exact plain_zero
    rw [if_pos (hClass.ids_eq_nil hPlain)]
    exact if_pos hZero
  · rcases hOwned.consistent.exists_dereference
        (hOwned.valid hZero) with ⟨t, hT⟩
    have hAt : tags.classAt m (tag o) = some t.classView := by
      unfold TagMemory.classAt viewAt
      rw [hT]
      rfl
    unfold TagMemory.tagToClassTagPointer
    rw [if_neg hZero, hT, Option.map_some]
    congr 1
    split
    · next hNil =>
        have hNone := hClass.plain o hNil _ hAt
        exact Option.map_eq_none_iff.mp hNone
    · next hNe =>
        have hTagged := hClass.tagged o hNe
        rw [hAt] at hTagged
        rcases Option.map_eq_some_iff.mp
            (Option.some.inj hTagged) with ⟨l, hL, hPair⟩
        rw [hL]
        exact congrArg some (congrArg Prod.fst hPair)

variable [DecidableEq O]

/- One object takes a tag; the others keep theirs. -/
theorem ClassTags.update
    (hClass : ClassTags m ids tag tags)
    (hOthers :
      ∀ p, p ≠ o →
        tags'.classAt m (tag p) = tags.classAt m (tag p))
    (hSelf :
      (ids o = [] ∧ Plain m tags' b) ∨
        tags'.classAt m b = tags.classAt m (tag o)) :
    ClassTags m ids (Function.update tag o b) tags' := by
  constructor
  · intro p hNe
    by_cases hEq : p = o
    · subst hEq
      rw [Function.update_self]
      rcases hSelf with ⟨hNil, _⟩ | hSame
      · exact absurd hNil hNe
      · rw [hSame]
        exact hClass.tagged p hNe
    · rw [Function.update_of_ne hEq, hOthers p hEq]
      exact hClass.tagged p hNe
  · intro p hNil
    by_cases hEq : p = o
    · subst hEq
      rw [Function.update_self]
      rcases hSelf with ⟨_, hPlain⟩ | hSame
      · exact hPlain
      · intro x hX
        rw [hSame] at hX
        exact hClass.plain p hNil x hX
    · rw [Function.update_of_ne hEq]
      exact plain_congr (hOthers p hEq)
        (hClass.plain p hNil)

variable [Fintype O]
variable {args : ReferenceArguments jlong}

/- What the referrers without infos do. -/
theorem ClassTags.handled
    (hClass : ClassTags m ids tag tags)
    (hHandled :
      Handled m args.referrerTag true (tag o) tags b tags')
    (hKeeps : ids o ≠ [] → b = tag o)
    (hNext : Owned m (Function.update tag o b) tags') :
    ClassTags m ids (Function.update tag o b) tags' := by
  cases hHandled with
  | keep _ =>
      exact hClass.update (fun _ _ => rfl) (Or.inr rfl)
  | empty hZero =>
      refine hClass.update (fun _ _ => rfl) (Or.inl ⟨?_,
        plain_of_static (Or.inl rfl)⟩)
      apply hClass.ids_eq_nil
      rw [hZero]
      exact plain_zero
  | reset _ hUnref =>
      have hStatic : m.isStatic m.tagWithNewInfo :=
        Or.inr (Or.inl rfl)
      refine hClass.update
        (fun p hNe => unref_viewAt classView_uncounted hUnref
          (hNext.inUse_of_ne hNe))
        (Or.inl ⟨?_, plain_of_static hStatic⟩)
      by_contra hNe
      apply hNe
      apply hClass.ids_eq_nil
      rw [← hKeeps hNe]
      exact plain_of_static hStatic
  | visit _ _ _ _ _ hVisit =>
      have hSame := visitFromUntaggedReferrer_classAt hVisit
      exact hClass.update (fun p _ => hSame (tag p))
        (Or.inr (hSame (tag o)))

/- The first traversal keeps all class tags. -/
theorem ClassTags.getTagsWithNewInfo
    (hOwned : Owned m tag tags)
    (hClass : ClassTags m ids tag tags)
    (hTag : args.tag = tag o)
    (hReferrer :
      ∀ a, args.referrerTag = some a → ∃ p, tag p = a)
    (hSome :
      SizesTags.getTagsWithNewInfo m args tags =
        some (b, tags'))
    (hNext : Owned m (Function.update tag o b) tags') :
    ClassTags m ids (Function.update tag o b) tags' := by
  have hKeeps : ids o ≠ [] → b = tag o := by
    intro hNe
    have hAt :
        tags.classAt m args.tag =
          some (some (ids o, false)) := by
      rw [hTag]
      exact hClass.tagged o hNe
    rw [← hTag]
    exact getTagsWithNewInfo_of_class hAt hSome
  by_cases hFrom :
      ∃ r x, args.referrerTag = some r ∧
        tags.classAt m r = some (some x)
  · rcases hFrom with ⟨r, x, hR, hX⟩
    rcases getTagsWithNewInfo_from_class hR hX hSome with
      ⟨hB, hTags⟩
    rw [hB, hTags, hTag]
    exact hClass.update (fun _ _ => rfl) (Or.inr rfl)
  -- the referrer has no class tag from here on
  have hPlain :
      ∀ r, Informed m args.referrerTag r → Plain m tags r := by
    intro r hInformed x hX
    cases x with
    | none => rfl
    | some x => exact absurd ⟨r, x, hInformed.1, hX⟩ hFrom
  have hUnset : tag o = 0 → ids o = [] := by
    intro hZero
    apply hClass.ids_eq_nil
    rw [hZero]
    exact plain_zero
  cases getTagsWithNewInfo_cases hSome with
  | keep =>
      rw [hTag]
      exact hClass.update (fun _ _ => rfl) (Or.inr rfl)
  | handled hHandled =>
      rw [hTag] at hHandled
      exact hClass.handled hHandled hKeeps hNext
  | @share r _ tags₁ _ hInformed hZero hShare hSet =>
      rcases hReferrer r hInformed.1 with ⟨p, hP⟩
      rcases share_classAt (hPlain r hInformed) hShare with
        ⟨hB, hAll⟩
      have hSame :
          ∀ c, tags'.classAt m c = tags₁.classAt m c := by
        apply setAlreadyReferred_classAt _ hSet
        apply plain_congr _ (hPlain r hInformed)
        rw [← hP]
        exact hAll (tag p) (hOwned.inUse p)
      refine hClass.update (fun p _ => ?_) (Or.inl
        ⟨hUnset (hTag.symm.trans hZero),
          plain_congr (hSame b) hB⟩)
      rw [hSame]
      exact hAll (tag p) (hOwned.inUse p)
  | @reset r tags₁ _ hInformed hUnref hSet =>
      have hStatic : m.isStatic m.tagWithNewInfo :=
        Or.inr (Or.inl rfl)
      have hUse : tags₁.InUse m r := modify_inUse_self hSet
      have hSame :
          ∀ c, tags'.classAt m c = tags₁.classAt m c := by
        apply setAlreadyReferred_classAt _ hSet
        exact plain_congr
          (unref_viewAt classView_uncounted hUnref hUse)
          (hPlain r hInformed)
      refine hClass.update (fun p hNe => ?_) (Or.inl
        ⟨?_, plain_of_static hStatic⟩)
      · rw [hSame]
        exact unref_viewAt classView_uncounted hUnref
          (modify_inUse hSet (hNext.inUse_of_ne hNe))
      · by_contra hNe
        apply hNe
        apply hClass.ids_eq_nil
        rw [← hKeeps hNe]
        exact plain_of_static hStatic
  | @merge r _ tags₁ _ hInformed hMerge hSet =>
      rcases merge_classAt hMerge with ⟨hB, hAll⟩
      rcases hReferrer r hInformed.1 with ⟨p, hP⟩
      have hUse : tags₁.InUse m r := modify_inUse_self hSet
      have hUseR : tags.InUse m r := by
        rw [← hP]
        exact hOwned.inUse p
      have hSame :
          ∀ c, tags'.classAt m c = tags₁.classAt m c := by
        apply setAlreadyReferred_classAt _ hSet
        exact plain_congr (hAll r hUseR hUse)
          (hPlain r hInformed)
      have hInUseB := hNext.inUse o
      rw [Function.update_self] at hInUseB
      refine hClass.update (fun p hNe => ?_) (Or.inl
        ⟨?_, plain_congr (hSame b)
          (hB (modify_inUse hSet hInUseB))⟩)
      · rw [hSame]
        exact hAll (tag p) (hOwned.inUse p)
          (modify_inUse hSet (hNext.inUse_of_ne hNe))
      · by_contra hNe
        apply (merge_effect hMerge).2.1
        rw [hKeeps hNe]
        exact hOwned.inUse o
  | refer hInformed hSet =>
      have hSame :=
        setAlreadyReferred_classAt (hPlain _ hInformed) hSet
      rw [hTag]
      exact hClass.update (fun p _ => hSame (tag p))
        (Or.inr (hSame (tag o)))

end SizesTags

end MemoryAgent
