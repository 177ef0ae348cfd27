import MemoryAgent.Sizes.Tags.FirstPass

/-
  Which infos of other objects a reference callback changes.
  A tag may be shared, and `visitFromUntaggedReferrer` marks
  the infos in place; in the first traversal every shared
  tag has been referred already, and is reset instead.

  Key definitions include:
    * `SizesTags.SharedReferred`
    * `SizesTags.attributed`
    * `SizesTags.MarksShared`

  Main results:
    * `SizesTags.sharedReferred_stable`
    * `SizesTags.getTagsWithNewInfo_frame`
    * `SizesTags.visitReference_frame_iff`
    * `SizesTags.spreadInfo_frame`
    * `SizesTags.frame_iff`
-/

------------------------------------------------------------
-- Shared Tags
------------------------------------------------------------

namespace MemoryAgent

namespace SizesTags

open RecordStore TagMemory

section Referred

variable {m : TagAddresses}
variable {tags tags' : TagMemory}
variable {a b tag : jlong}
variable {f : Tag → Tag}
variable {t : Tag}

/- The tag, if there is one, has been referred already. -/
def Referred
    (tags : TagMemory)
    (a : jlong) : Prop :=
  ∀ t, tags.store.get a = some t → t.alreadyReferred = true

theorem modify_referred
    (hModify : tags.modify m tag f = some tags')
    (hF :
      ∀ t, tags.store.get tag = some t →
        t.alreadyReferred = true →
          (f t).alreadyReferred = true)
    (hReferred : Referred tags a) :
    Referred tags' a := by
  intro t hGet
  rw [modify_get hModify] at hGet
  split at hGet
  · next hEq =>
      rcases Option.map_eq_some_iff.mp hGet with
        ⟨r, hR, hT⟩
      rw [← hT]
      rw [hEq] at hReferred
      exact hF r hR (hReferred r hR)
  · exact hReferred t hGet

theorem setAlreadyReferred_referred
    (hSet : tags.setAlreadyReferred m tag = some tags') :
    Referred tags' tag ∧
      ∀ a, Referred tags a → Referred tags' a := by
  refine ⟨?_, fun a hReferred =>
    modify_referred hSet (fun _ _ _ => rfl) hReferred⟩
  intro t hGet
  rw [modify_get hSet, if_pos rfl] at hGet
  rcases Option.map_eq_some_iff.mp hGet with ⟨r, _, hEq⟩
  rw [← hEq]

theorem unref_referred
    (hUnref : tags.unref m tag = some tags')
    (hReferred : Referred tags a) :
    Referred tags' a := by
  rcases unref_cases hUnref with
    ⟨_, hSame⟩ | ⟨_, t, hT, hDeleted | hModify⟩
  · rw [hSame]
    exact hReferred
  · intro r hGet
    rw [hDeleted] at hGet
    change (tags.store.delete tag).get a = some r at hGet
    rw [Store.get_delete] at hGet
    split at hGet
    · cases hGet
    · exact hReferred r hGet
  · apply modify_referred hModify _ hReferred
    intro r hR hTrue
    rw [hT] at hR
    rw [← Option.some.inj hR] at hTrue
    rw [Tag.decrementRefCount_alreadyReferred]
    exact hTrue

theorem new_referred
    (hInUse : tags.InUse m a)
    (hReferred : Referred tags a) :
    Referred (tags.new m t).2 a := by
  intro r hGet
  rw [new_get, if_neg hInUse.ne_new] at hGet
  exact hReferred r hGet

theorem share_referred
    (hShare : tags.share m tag = some (b, tags'))
    (hInUse : tags.InUse m a)
    (hReferred : Referred tags a) :
    Referred tags' a := by
  rcases share_cases hShare with
    ⟨t, _, ⟨_, hNew⟩ | ⟨_, _, hRef⟩⟩
  · cases hNew
    exact new_referred hInUse hReferred
  · apply modify_referred hRef _ hReferred
    intro r _ hTrue
    rw [Tag.incrementRefCount_alreadyReferred]
    exact hTrue

theorem merge_referred
    {referrer : jlong}
    (hMerge : tags.merge m tag referrer = some (b, tags'))
    (hInUse : tags.InUse m a)
    (hReferred : Referred tags a) :
    Referred tags' a := by
  rcases merge_cases hMerge with ⟨t, r, _, _, _, hUnref⟩
  exact unref_referred hUnref
    (new_referred hInUse hReferred)

end Referred

section Shared

variable {O : Type}
variable {m : TagAddresses}
variable {tag : O → jlong}
variable {tags tags' : TagMemory}
variable {o : O}
variable {b : jlong}

/- A tag that two objects carry has been referred. -/
def SharedReferred
    (tag : O → jlong)
    (tags : TagMemory) : Prop :=
  ∀ p q, p ≠ q → tag p = tag q → Referred tags (tag p)

variable [Fintype O]

theorem Owned.get_reserved
    (hOwned : Owned m tag tags)
    {a : jlong}
    (hMem : a ∈ m.reserved) :
    tags.store.get a = none := by
  by_contra hLive
  rcases Option.ne_none_iff_exists'.mp hLive with ⟨t, hT⟩
  apply (hOwned.consistent.counted.live a t hT).2
  exact hOwned.consistent.reserved a hMem

theorem Owned.referred_reserved
    (hOwned : Owned m tag tags)
    {a : jlong}
    (hMem : a ∈ m.reserved) :
    Referred tags a := by
  intro t hT
  rw [hOwned.get_reserved hMem] at hT
  cases hT

theorem Owned.inUse
    (hOwned : Owned m tag tags)
    (o : O) :
    tags.InUse m (tag o) := by
  by_cases hMem : tag o ∈ m.reserved
  · exact Or.inl hMem
  · rcases hOwned.consistent.counted.exists_get
        (owners_ne_zero hMem) with ⟨t, hT⟩
    exact InUse.of_get hT

variable [DecidableEq O]

omit [Fintype O] in
/- One object takes a tag; the others keep theirs. -/
theorem SharedReferred.update
    (hShared : SharedReferred tag tags)
    (hKeep :
      ∀ p, Referred tags (tag p) → Referred tags' (tag p))
    (hB : ∀ p, p ≠ o → tag p = b → Referred tags' b) :
    SharedReferred (Function.update tag o b) tags' := by
  intro p q hNe hEq
  by_cases hP : p = o
  · subst hP
    have hQ : q ≠ p := Ne.symm hNe
    rw [Function.update_self, Function.update_of_ne hQ]
      at hEq
    rw [Function.update_self]
    exact hB q hQ hEq.symm
  · rw [Function.update_of_ne hP] at hEq ⊢
    by_cases hQ : q = o
    · subst hQ
      rw [Function.update_self] at hEq
      rw [hEq]
      exact hB p hP hEq
    · rw [Function.update_of_ne hQ] at hEq
      exact hKeep p (hShared p q hNe hEq)

/- A tag that was not in use has one carrier. -/
theorem SharedReferred.update_fresh
    (hShared : SharedReferred tag tags)
    (hOwned : Owned m tag tags)
    (hKeep :
      ∀ p, Referred tags (tag p) → Referred tags' (tag p))
    (hFresh : ¬ tags.InUse m b) :
    SharedReferred (Function.update tag o b) tags' := by
  apply hShared.update hKeep
  intro p _ hEq
  rw [← hEq] at hFresh
  exact absurd (hOwned.inUse p) hFresh

omit [Fintype O] in
theorem SharedReferred.keep
    (hShared : SharedReferred tag tags)
    (hKeep :
      ∀ p, Referred tags (tag p) → Referred tags' (tag p)) :
    SharedReferred (Function.update tag o (tag o))
      tags' := by
  apply hShared.update hKeep
  intro p hNe hEq
  rw [← hEq]
  exact hKeep p (hShared p o hNe hEq)

theorem SharedReferred.update_reserved
    (hShared : SharedReferred tag tags)
    (hOwned : Owned m tag tags)
    (hKeep :
      ∀ a, tags.InUse m a → Referred tags a →
        Referred tags' a)
    (hMem : b ∈ m.reserved) :
    SharedReferred (Function.update tag o b) tags' := by
  apply hShared.update
  · exact fun p => hKeep _ (hOwned.inUse p)
  · intro _ _ _
    exact hKeep b (Or.inl hMem)
      (hOwned.referred_reserved hMem)

end Shared

------------------------------------------------------------
-- The First Traversal
------------------------------------------------------------

section FirstTraversal

variable {O : Type}
variable {m : TagAddresses}
variable {tag : O → jlong}
variable {tags tags' : TagMemory}
variable {args : ReferenceArguments jlong}
variable {o : O}
variable {b : jlong}
variable [Fintype O]
variable [DecidableEq O]

theorem Handled.referred
    {referrerTag : Option jlong}
    {setTagsWithNewInfo : Bool}
    {a c : jlong}
    (hHandled :
      Handled m referrerTag setTagsWithNewInfo a tags b
        tags')
    (hReferred : Referred tags c) :
    Referred tags' c := by
  cases hHandled with
  | keep _ => exact hReferred
  | empty _ => exact hReferred
  | reset _ hUnref => exact unref_referred hUnref hReferred
  | visit _ _ _ _ _ hVisit =>
      rcases visitFromUntaggedReferrer_cases hVisit with
        ⟨t, _, ⟨_, hSame⟩ | ⟨_, hModify⟩⟩
      · rw [hSame]
        exact hReferred
      · exact modify_referred hModify (fun _ _ hTrue => hTrue)
          hReferred

theorem SharedReferred.getTagsWithNewInfo
    (hShared : SharedReferred tag tags)
    (hOwned : Owned m tag tags)
    (hTag : args.tag = tag o)
    (hSome :
      SizesTags.getTagsWithNewInfo m args tags =
        some (b, tags')) :
    SharedReferred (Function.update tag o b) tags' := by
  cases getTagsWithNewInfo_cases hSome with
  | keep =>
      rw [hTag]
      exact hShared.keep (fun _ hReferred => hReferred)
  | handled hHandled =>
      have hKeep :
          ∀ c, Referred tags c → Referred tags' c :=
        fun c hReferred => hHandled.referred hReferred
      rw [hTag] at hHandled
      cases hHandled with
      | keep _ => exact hShared.keep (fun p => hKeep (tag p))
      | empty _ =>
          exact hShared.update_reserved hOwned
            (fun c _ => hKeep c) (emptyTag_mem_reserved m)
      | reset _ _ =>
          exact hShared.update_reserved hOwned
            (fun c _ => hKeep c)
            (tagWithNewInfo_mem_reserved m)
      | visit _ _ _ _ _ _ =>
          exact hShared.keep (fun p => hKeep (tag p))
  | share hInformed hZero hShare hSet =>
      rcases setAlreadyReferred_referred hSet with
        ⟨hSelf, hAll⟩
      have hKeep :
          ∀ p, Referred tags (tag p) →
            Referred tags' (tag p) :=
        fun p hReferred =>
          hAll _ (share_referred hShare (hOwned.inUse p)
            hReferred)
      rcases (share_effect hShare).2.1 with hSame | hFresh
      · -- The shared tag is the referrer's, now referred.
        subst hSame
        exact hShared.update hKeep (fun _ _ _ => hSelf)
      · exact hShared.update_fresh hOwned hKeep hFresh
  | reset _ hUnref hSet =>
      exact hShared.update_reserved hOwned
        (fun c _ hReferred =>
          (setAlreadyReferred_referred hSet).2 c
            (unref_referred hUnref hReferred))
        (tagWithNewInfo_mem_reserved m)
  | merge _ hMerge hSet =>
      exact hShared.update_fresh hOwned
        (fun p hReferred =>
          (setAlreadyReferred_referred hSet).2 _
            (merge_referred hMerge (hOwned.inUse p)
              hReferred))
        (merge_effect hMerge).2.1
  | refer _ hSet =>
      rw [hTag]
      exact hShared.keep (fun p =>
        (setAlreadyReferred_referred hSet).2 (tag p))

theorem SharedReferred.createTagForObject
    {index : Nat}
    (hShared : SharedReferred tag tags)
    (hOwned : Owned m tag tags)
    (hSome :
      SizesTags.createTagForObject m index (tag o) tags =
        some (b, tags')) :
    SharedReferred (Function.update tag o b) tags' := by
  unfold SizesTags.createTagForObject at hSome
  dsimp only at hSome
  split at hSome
  · simp only [Option.bind_eq_bind,
      Option.bind_eq_some_iff] at hSome
    rcases hSome with ⟨t, _, next, hModify, hEq⟩
    cases hEq
    apply hShared.keep
    intro p hReferred r hGet
    change (next.store.delete _).get (tag p) = some r at hGet
    rw [Store.get_delete] at hGet
    split at hGet
    · cases hGet
    · exact
        modify_referred hModify (fun _ _ hTrue => hTrue)
          (new_referred (hOwned.inUse p) hReferred) r hGet
  · cases hSome
    exact hShared.update_fresh hOwned
      (fun p hReferred =>
        new_referred (hOwned.inUse p) hReferred)
      new_not_inUse

theorem SharedReferred.tagClass
    {index : Nat}
    (hShared : SharedReferred tag tags)
    (hOwned : Owned m tag tags)
    (hSome :
      SizesTags.tagClass m index (tag o) tags =
        some (b, tags')) :
    SharedReferred (Function.update tag o b) tags' := by
  unfold SizesTags.tagClass at hSome
  simp only [Option.bind_eq_bind, Option.bind_eq_some_iff]
    at hSome
  rcases hSome with ⟨classTag, _, hBranch⟩
  cases classTag with
  | none =>
      cases hBranch
      exact hShared.update_fresh hOwned
        (fun p hReferred =>
          new_referred (hOwned.inUse p) hReferred)
        (new_not_inUse (t := .ofClass index))
  | some ids =>
      rcases Option.bind_eq_some_iff.mp hBranch with
        ⟨next, hModify, hEq⟩
      cases hEq
      exact hShared.keep (fun _ hReferred =>
        modify_referred hModify (fun _ _ hTrue => hTrue)
          hReferred)

theorem SharedReferred.tagObjectOfTaggedClass
    {classTag : jlong}
    (hShared : SharedReferred tag tags)
    (hOwned : Owned m tag tags)
    (hSome :
      SizesTags.tagObjectOfTaggedClass m classTag (tag o)
        tags = some (b, tags')) :
    SharedReferred (Function.update tag o b) tags' := by
  unfold SizesTags.tagObjectOfTaggedClass at hSome
  rcases Option.bind_eq_some_iff.mp hSome with
    ⟨pClassTag, _, hBranch⟩
  cases pClassTag with
  | none =>
      cases hBranch
      exact hShared.keep (fun _ hReferred => hReferred)
  | some ids =>
      dsimp only at hBranch
      split at hBranch
      · cases hBranch
        exact hShared.update_fresh hOwned
          (fun p hReferred =>
            new_referred (hOwned.inUse p) hReferred)
          (new_not_inUse (t := .startTag ids))
      · cases hBranch
        exact hShared.keep (fun _ hReferred => hReferred)

/- Up to the end of the search this is never lost. -/
theorem sharedReferred_stable
    (m : TagAddresses) :
    EarlyStable m (SharedReferred : (O → jlong) → _) where
  createTagForObject := fun hOwned hShared hSome =>
    hShared.createTagForObject hOwned hSome
  tagClass := fun hOwned hShared hSome =>
    hShared.tagClass hOwned hSome
  tagObjectOfTaggedClass := fun hOwned hShared hSome =>
    hShared.tagObjectOfTaggedClass hOwned hSome
  getTagsWithNewInfo := fun hOwned hShared hTag _ hSome =>
    hShared.getTagsWithNewInfo hOwned hTag hSome

end FirstTraversal

------------------------------------------------------------
-- Frames
------------------------------------------------------------

section Frames

variable {O : Type}
variable {m : TagAddresses}
variable {tag : O → jlong}
variable {tags tags' : TagMemory}
variable {args : ReferenceArguments jlong}
variable {o q : O}
variable {b : jlong}
variable [Fintype O]
variable [DecidableEq O]

/- Another object keeps its tag, which stays in use. -/
theorem Owned.inUse_of_ne
    (hNext : Owned m (Function.update tag o b) tags')
    (hNe : q ≠ o) :
    tags'.InUse m (tag q) := by
  have hInUse := hNext.inUse q
  rw [Function.update_of_ne hNe] at hInUse
  exact hInUse

theorem getTagsWithNewInfo_frame
    (hOwned : Owned m tag tags)
    (hShared : SharedReferred tag tags)
    (hTag : args.tag = tag o)
    (hSome :
      SizesTags.getTagsWithNewInfo m args tags =
        some (b, tags'))
    (hNext : Owned m (Function.update tag o b) tags')
    (hNe : q ≠ o) :
    tags'.infosAt m (tag q) = tags.infosAt m (tag q) := by
  have hInUse := hOwned.inUse q
  have hInUse' := hNext.inUse_of_ne hNe
  have hSetArray :
      ∀ {tags₁ tags₂ : TagMemory} {r : jlong},
        tags₁.setAlreadyReferred m r = some tags₂ →
          tags₂.infosAt m (tag q) =
            tags₁.infosAt m (tag q) :=
    fun hSet => modify_infosAt hSet (fun _ _ => rfl) _
  cases getTagsWithNewInfo_cases hSome with
  | keep => rfl
  | handled hHandled =>
      rw [hTag] at hHandled
      cases hHandled with
      | keep _ => rfl
      | empty _ => rfl
      | reset _ hUnref => exact unref_infosAt hUnref hInUse'
      | visit _ hZero _ hT hNot hVisit =>
          have hEffect :=
            visitFromUntaggedReferrer_effect hVisit
          by_cases hEq : tag q = tag o
          · by_cases hStatic : m.isStatic (tag o)
            · rw [hEq, infosAt_of_static hStatic,
                infosAt_of_static hStatic]
            · -- A shared tag would have been reset.
              unfold dereference at hT
              rw [if_neg hStatic, if_neg hZero] at hT
              have hReferred :=
                hShared o q (Ne.symm hNe) hEq.symm _ hT
              exact absurd ⟨rfl, hReferred⟩ hNot
          · exact hEffect.2.1 (tag q) hEq
  | share _ _ hShare hSet =>
      exact (hSetArray hSet).trans
        ((share_effect hShare).2.2 _ hInUse)
  | reset _ hUnref hSet =>
      exact (hSetArray hSet).trans
        (unref_infosAt hUnref (modify_inUse hSet hInUse'))
  | merge _ hMerge hSet =>
      exact (hSetArray hSet).trans
        ((merge_effect hMerge).2.2 _ hInUse
          (modify_inUse hSet hInUse'))
  | refer _ hSet => exact hSetArray hSet

theorem spreadInfo_frame
    (hOwned : Owned m tag tags)
    (hSome :
      SizesTags.spreadInfo m args tags = some (b, tags'))
    (hNext : Owned m (Function.update tag o b) tags')
    (hNe : q ≠ o) :
    tags'.infosAt m (tag q) = tags.infosAt m (tag q) := by
  cases spreadInfo_cases hSome with
  | keep => rfl
  | erase => rfl
  | merge _ hMerge =>
      exact (merge_effect hMerge).2.2 _ (hOwned.inUse q)
        (hNext.inUse_of_ne hNe)

/-
  A referrer without infos finds a tag that another object
  carries too, with an info it has yet to mark.
-/
def MarksSharedTag
    (m : TagAddresses)
    (tag : O → jlong)
    (tags : TagMemory)
    (args : ReferenceArguments jlong)
    (o : O) : Prop :=
  args.refKind.isJni = false ∧
    FromUntagged m args.referrerTag ∧
    ∃ q, q ≠ o ∧ tag q = tag o ∧
      ∃ infos, tags.infosAt m (tag q) = some infos ∧
        ∃ info ∈ infos,
          asVisitedFromUntagged info.state ≠ info.state

omit [Fintype O] [DecidableEq O] in
/- The marked infos are the same if all were marked. -/
theorem marked_eq_iff
    (infos : List TagInfo) :
    infos.map
        (fun info =>
          (⟨info.index,
            asVisitedFromUntagged info.state⟩ : TagInfo)) =
        infos ↔
      ∀ info ∈ infos,
        asVisitedFromUntagged info.state = info.state := by
  induction infos with
  | nil => simp
  | cons info infos ih =>
      rw [List.map_cons, List.cons.injEq, ih,
        List.forall_mem_cons]
      apply and_congr_left
      intro _
      constructor
      · exact fun hEq => congrArg TagInfo.state hEq
      · intro hEq
        rw [hEq]

theorem visitReference_frame_iff
    (hOwned : Owned m tag tags)
    (hTag : args.tag = tag o)
    (hSome :
      SizesTags.visitReference m args tags =
        some (b, tags'))
    (hNext : Owned m (Function.update tag o b) tags') :
    (∀ q, q ≠ o →
        tags'.infosAt m (tag q) = tags.infosAt m (tag q)) ↔
      ¬ MarksSharedTag m tag tags args o := by
  have hInformed :
      ∀ {r}, Informed m args.referrerTag r →
        ¬ MarksSharedTag m tag tags args o := by
    intro r hInformed hMarks
    rcases hMarks.2.1 with hNone | hEmpty
    · rw [hNone] at hInformed
      cases hInformed.1
    · rw [hEmpty] at hInformed
      exact hInformed.2.1
        (Option.some.inj hInformed.1).symm
  have hNoInfos :
      tags.infosAt m (tag o) = none ∨
          tags.infosAt m (tag o) = some [] →
        ¬ MarksSharedTag m tag tags args o := by
    rintro hCases ⟨_, _, q, _, hEq, infos, hInfos, info,
      hMem, _⟩
    rw [hEq] at hInfos
    rcases hCases with hNone | hNil
    · rw [hNone] at hInfos
      cases hInfos
    · rw [hNil] at hInfos
      cases hInfos
      exact absurd hMem List.not_mem_nil
  cases visitReference_cases hSome with
  | jni hJni =>
      refine iff_of_true (fun _ _ => rfl) ?_
      intro hMarks
      rw [hMarks.1] at hJni
      cases hJni
  | handled hJni hHandled =>
      rw [hTag] at hHandled
      cases hHandled with
      | keep hKeep =>
          refine iff_of_true (fun _ _ => rfl) ?_
          rcases hKeep with hNot | hEmpty
          · exact fun hMarks => hNot hMarks.2.1
          · apply hNoInfos
            rw [hEmpty]
            exact Or.inr (infosAt_of_static (Or.inl rfl))
      | empty hZero =>
          refine iff_of_true (fun _ _ => rfl) ?_
          apply hNoInfos
          rw [hZero]
          exact Or.inl infosAt_zero
      | reset hTrue _ => cases hTrue
      | visit hFrom hZero _ hT _ hVisit =>
          rcases visitFromUntaggedReferrer_effect hVisit with
            ⟨_, hOthers, infos, hInfos, hMarked⟩
          constructor
          · rintro hFrame ⟨_, _, q, hNe, hEq, infos', hOld,
              info, hMem, hDiff⟩
            have hSame := hFrame q hNe
            rw [hEq] at hSame hOld
            rw [hOld] at hInfos
            cases hInfos
            rw [hMarked, hOld] at hSame
            exact hDiff
              ((marked_eq_iff _).mp (Option.some.inj hSame)
                info hMem)
          · intro hNot q hNe
            by_cases hEq : tag q = tag o
            · rw [hEq, hMarked, hInfos]
              apply congrArg some
              apply (marked_eq_iff infos).mpr
              intro info hMem
              by_contra hDiff
              apply hNot
              refine ⟨hJni, hFrom, q, hNe, hEq, infos, ?_,
                info, hMem, hDiff⟩
              rw [hEq]
              exact hInfos
            · exact hOthers (tag q) hEq
  | share hInf _ hShare =>
      exact iff_of_true
        (fun q _ =>
          (share_effect hShare).2.2 _ (hOwned.inUse q))
        (hInformed hInf)
  | retag hInf _ hShare =>
      exact iff_of_true
        (fun q _ =>
          (share_effect hShare).2.2 _ (hOwned.inUse q))
        (hInformed hInf)
  | merge hInf hMerge =>
      exact iff_of_true
        (fun q hNe =>
          (merge_effect hMerge).2.2 _ (hOwned.inUse q)
            (hNext.inUse_of_ne hNe))
        (hInformed hInf)
  | keep hInf =>
      exact iff_of_true (fun _ _ => rfl) (hInformed hInf)

end Frames

------------------------------------------------------------
-- Reachable States
------------------------------------------------------------

/- The infos that an object's tag attributes to it. -/
def attributed
    {O : Type}
    (m : TagAddresses)
    (s : State O)
    (o : O) : Option (List TagInfo) :=
  s.data.user.bind (visitedInfos m (s.data.tag o))

/-
  In the second traversal a root, or an object that carries
  the empty tag, is reported to refer to an object whose tag
  another object carries too, with an info that has not been
  marked as visited and as reachable outside.
-/
def MarksShared
    {O : Type}
    (m : TagAddresses)
    (s : State O)
    (r : Report O) : Prop :=
  (∃ pending visited rest objects,
    s.point =
      .running (.follow .visitReference pending visited)
        rest objects) ∧
    r.kind.isJni = false ∧
    FromUntagged m (r.referrer.map s.data.tag) ∧
    ∃ q, q ≠ r.referee ∧
      s.data.tag q = s.data.tag r.referee ∧
      ∃ infos, attributed m s q = some infos ∧
        ∃ info ∈ infos,
          asVisitedFromUntagged info.state ≠ info.state

section Reachable

variable {O : Type}
variable [Fintype O]
variable [DecidableEq O]
variable {m : TagAddresses}
variable {tags tags' : TagMemory}

omit [Fintype O] [DecidableEq O] in
theorem visitedInfos_congr
    {a : jlong} :
    visitedInfos m a tags' = visitedInfos m a tags ↔
      tags'.infosAt m a = tags.infosAt m a := by
  unfold visitedInfos
  by_cases hZero : a = 0
  · rw [hZero, if_pos rfl, infosAt_zero, infosAt_zero]
    exact iff_of_true rfl rfl
  · rw [if_neg hZero, if_neg hZero]
    exact Iff.rfl

omit [Fintype O] [DecidableEq O] in
/- Infos to mark are those of a tag that is not 0. -/
theorem exists_visitedInfos_iff
    {a : jlong}
    {P : TagInfo → Prop} :
    (∃ infos, visitedInfos m a tags = some infos ∧
        ∃ info ∈ infos, P info) ↔
      ∃ infos, tags.infosAt m a = some infos ∧
        ∃ info ∈ infos, P info := by
  unfold visitedInfos
  by_cases hZero : a = 0
  · rw [hZero, if_pos rfl, infosAt_zero]
    constructor
    · rintro ⟨infos, hNil, info, hMem, _⟩
      rw [← Option.some.inj hNil] at hMem
      exact absurd hMem List.not_mem_nil
    · rintro ⟨infos, hNone, _⟩
      cases hNone
  · rw [if_neg hZero]
    exact Iff.rfl

omit [DecidableEq O] in
theorem SharedReferred.of_zero
    {tag : O → jlong}
    (hOwned : Owned m tag tags)
    (hZero : ∀ o, tag o = 0) :
    SharedReferred tag tags := by
  intro p _ _ _
  rw [hZero p]
  exact hOwned.referred_reserved (zero_mem_reserved m)

/- In a run, shared tags are referred up to the search. -/
theorem exists_whileEarly
    (hCard : Fintype.card O < refCountSize)
    (commands : List (Command O))
    {s s' : State O}
    (hInvariant :
      Invariant m s.data
        (fun tag tags => PointInvariant m tag tags s.point)
        tags)
    (hEarly :
      WhileEarly SharedReferred s.data.tag tags s.point)
    (hRun : SizesTags.run m s commands = some s') :
    ∃ tags',
      Invariant m s'.data
        (fun tag tags => PointInvariant m tag tags s'.point)
        tags' ∧
      WhileEarly SharedReferred s'.data.tag tags'
        s'.point := by
  induction commands generalizing s tags with
  | nil =>
      cases hRun
      exact ⟨tags, hInvariant, hEarly⟩
  | cons command commands ih =>
      unfold SizesTags.run at hRun
      rw [List.foldlM_cons] at hRun
      rcases Option.bind_eq_some_iff.mp hRun with
        ⟨t, hStep, hRest⟩
      rcases hInvariant.execute hCard hStep with
        ⟨next, hNext⟩
      have hStart :
          s.point = .idle →
            SharedReferred s.data.tag tags := by
        intro hIdle
        have hZero := hInvariant.holds
        rw [hIdle] at hZero
        exact SharedReferred.of_zero hInvariant.owned hZero
      have hEarly' :=
        hEarly.execute (sharedReferred_stable m) hStart
          hInvariant.user hInvariant.owned hStep hNext.user
      exact ih hNext hEarly' hRest

/- A reported reference changes the tag of its referee. -/
theorem execute_report
    {s s' : State O}
    {r : Report O}
    (hUser : s.data.user = some tags)
    (hStep : SizesTags.execute m s (.report r) = some s')
    (hNext : s'.data.user = some tags') :
    ∃ b, s'.data.tag =
        Function.update s.data.tag r.referee b ∧
      ((∃ pending visited rest objects,
          s.point =
              .running
                (.follow .getTagsWithNewInfo pending visited)
                rest objects ∧
            getTagsWithNewInfo m (s.heap.arguments r s.data)
                tags =
              some (b, tags')) ∨
        (∃ pending visited rest objects,
          s.point =
              .running
                (.follow .visitReference pending visited)
                rest objects ∧
            visitReference m (s.heap.arguments r s.data)
                tags =
              some (b, tags')) ∨
        ∃ todo pending visited rest objects,
          s.point =
              .running (.walk todo pending visited) rest
                objects ∧
            spreadInfo m (s.heap.arguments r s.data) tags =
              some (b, tags')) := by
  cases step_of_execute hStep with
  | @report h data work rest objects _ next hReport =>
      rcases next with ⟨⟨tag', user⟩, work'⟩
      have hReported :
          Reported m (h.arguments r data) data.tag tags
            r.referee work tag' tags' work' :=
        reported_of_report hUser hReport hNext
      cases hReported with
      | getTags hSome =>
          exact ⟨_, rfl,
            Or.inl ⟨_, _, rest, objects, rfl, hSome⟩⟩
      | visit hSome =>
          exact ⟨_, rfl,
            Or.inr (Or.inl ⟨_, _, rest, objects, rfl, hSome⟩)⟩
      | spread hSome =>
          exact ⟨_, rfl,
            Or.inr (Or.inr
              ⟨_, _, _, rest, objects, rfl, hSome⟩)⟩

end Reachable

/-
  In every reachable state, a reported reference leaves the
  infos of all other objects as they are unless it marks
  those of a shared tag.
-/
theorem frame_iff
    {O : Type}
    [Fintype O]
    [DecidableEq O]
    (m : TagAddresses)
    (s s' : State O)
    (r : Report O)
    (hCard : Fintype.card O < refCountSize)
    (hReachable : Reachable m s)
    (hStep : execute m s (.report r) = some s') :
    (∀ q, q ≠ r.referee →
        attributed m s' q = attributed m s q) ↔
      ¬ MarksShared m s r := by
  rcases hReachable with ⟨heap, commands, hRun⟩
  rcases exists_whileEarly hCard commands
      (Invariant.initial heap) trivial hRun with
    ⟨tags, hInvariant, hEarly⟩
  rcases hInvariant.execute hCard hStep with ⟨tags', hNext⟩
  rcases execute_report hInvariant.user hStep hNext.user with
    ⟨b, hTag, hCases⟩
  have hOwned := hInvariant.owned
  have hNextOwned := hNext.owned
  rw [hTag] at hNextOwned
  have hFrame :
      (∀ q, q ≠ r.referee →
          attributed m s' q = attributed m s q) ↔
        ∀ q, q ≠ r.referee →
          tags'.infosAt m (s.data.tag q) =
            tags.infosAt m (s.data.tag q) := by
    apply forall_congr'
    intro q
    apply forall_congr'
    intro hNe
    unfold attributed
    rw [hInvariant.user, hNext.user, Option.bind_some,
      Option.bind_some, hTag, Function.update_of_ne hNe]
    exact visitedInfos_congr
  rw [hFrame]
  rcases hCases with
    ⟨pending, visited, rest, objects, hPoint, hSome⟩ |
      ⟨pending, visited, rest, objects, hPoint, hSome⟩ |
      ⟨todo, pending, visited, rest, objects, hPoint, hSome⟩
  · rw [hPoint] at hEarly
    have hShared := hEarly.2.2 (Or.inl rfl)
    refine iff_of_true (fun q hNe =>
      getTagsWithNewInfo_frame hOwned hShared
        (arguments_tag r) hSome hNextOwned hNe) ?_
    rintro ⟨⟨_, _, _, _, hOther⟩, _⟩
    rw [hPoint] at hOther
    cases hOther
  · rw [visitReference_frame_iff hOwned (arguments_tag r)
      hSome hNextOwned]
    apply not_congr
    unfold MarksSharedTag MarksShared attributed
    rw [hInvariant.user]
    simp only [Option.bind_some, exists_visitedInfos_iff]
    constructor
    · rintro ⟨hJni, hFrom, hRest⟩
      exact ⟨⟨pending, visited, rest, objects, hPoint⟩, hJni,
        hFrom, hRest⟩
    · rintro ⟨_, hJni, hFrom, hRest⟩
      exact ⟨hJni, hFrom, hRest⟩
  · refine iff_of_true (fun q hNe =>
      spreadInfo_frame hOwned hSome hNextOwned hNe) ?_
    rintro ⟨⟨_, _, _, _, hOther⟩, _⟩
    rw [hPoint] at hOther
    cases hOther

/- The run of a pair, up to the second pass's references. -/
theorem frame_iff_pair :
    ∃ s s',
      run lowAddresses (.initial pairHeap)
          (pairCommands ++ [.begin [], .begin [],
            .begin []]) = some s ∧
        execute lowAddresses s
            (.report ⟨none, .stackLocal, .none, false⟩) =
          some s' ∧
        ((∀ q, q ≠ false →
            attributed lowAddresses s' q =
              attributed lowAddresses s q) ↔
          ¬ MarksShared lowAddresses s
              ⟨none, .stackLocal, .none, false⟩) := by
  have hSome :
      ((run lowAddresses (.initial pairHeap)
          (pairCommands ++ [.begin [], .begin [],
            .begin []])).any
        (fun s => (execute lowAddresses s
          (.report ⟨none, .stackLocal, .none,
            false⟩)).isSome)) = true := by
    decide +kernel
  rcases (Option.any_eq_true _ _).mp hSome with
    ⟨s, hRun, hStep⟩
  rcases Option.isSome_iff_exists.mp hStep with ⟨s', hStep⟩
  exact ⟨s, s', hRun, hStep,
    frame_iff lowAddresses s s'
      ⟨none, .stackLocal, .none, false⟩ (by decide +kernel)
      ⟨pairHeap, _, hRun⟩ hStep⟩

/-
  Object 0 refers to object 1, and objects 1 and 3 refer to
  object 2; a thread's stack holds object 4, which refers to
  object 3.
-/
def sharingHeap : Heap (Fin 6) where
  roots :=
    [⟨.jniLocal, .none, 1⟩, ⟨.jniLocal, .none, 3⟩,
      ⟨.jniLocal, .none, 0⟩, ⟨.stackLocal, .none, 4⟩]
  references := fun o =>
    if o = 0 then [⟨.field, .none, 1⟩]
    else if o = 1 then [⟨.field, .none, 2⟩]
    else if o = 3 then [⟨.field, .none, 2⟩]
    else if o = 4 then [⟨.field, .none, 3⟩]
    else []
  size := fun _ => 16
  classOf := fun _ => 5
  roots_isRoot := by decide
  references_isHeld := by decide
  size_pos := fun _ => sixteen_pos

/- The references up to that of object 1. -/
def sharingReports : List (Command (Fin 6)) :=
  [.report ⟨none, .jniLocal, .none, 1⟩,
    .report ⟨none, .jniLocal, .none, 3⟩,
    .report ⟨none, .jniLocal, .none, 0⟩,
    .report ⟨none, .stackLocal, .none, 4⟩,
    .report ⟨some 1, .field, .none, 2⟩]

/-
  The first pass over `sharingHeap` for object 0, and the
  second pass up to the reference of object 1, which makes
  object 2 share the tag of object 1.
-/
def sharingRun : List (Command (Fin 6)) :=
  [.start sharingHeap (.estimateRetainedSize [0]), .call,
    .begin []] ++ sharingReports ++
  [.report ⟨some 3, .field, .none, 2⟩,
    .report ⟨some 4, .field, .none, 3⟩,
    .report ⟨some 0, .field, .none, 1⟩,
    .begin [], .begin [], .begin []] ++ sharingReports

/-
  The next reference, of object 3 to object 2, marks the
  tag that object 1 carries too.
-/
theorem not_frame :
    ¬ ∀ s s' : State (Fin 6),
        run lowAddresses (.initial sharingHeap) sharingRun =
            some s →
          execute lowAddresses s
              (.report ⟨some 3, .field, .none, 2⟩) =
            some s' →
          ∀ q, q ≠ 2 →
            attributed lowAddresses s' q =
              attributed lowAddresses s q := by
  intro hAll
  have hMarks :
      ((run lowAddresses (.initial sharingHeap)
          sharingRun).any
        (fun s => (execute lowAddresses s
            (.report ⟨some 3, .field, .none, 2⟩)).any
          (fun s' => decide
            (attributed lowAddresses s' 1 ≠
              attributed lowAddresses s 1)))) = true := by
    decide +kernel
  rcases (Option.any_eq_true _ _).mp hMarks with
    ⟨s, hRun, hNext⟩
  rcases (Option.any_eq_true _ _).mp hNext with
    ⟨s', hStep, hNe⟩
  rw [decide_eq_true_iff] at hNe
  exact hNe (hAll s s' hRun hStep 1 (by decide))

end SizesTags

end MemoryAgent
