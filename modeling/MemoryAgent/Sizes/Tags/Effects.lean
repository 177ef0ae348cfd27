import MemoryAgent.Sizes.Tags.Actions

/-
  What the operations on tags leave as it is: the set of
  tags with new infos, and the infos of other tags.  The
  outcomes of the reference callbacks are listed once.

  Key definitions include:
    * `SizesTags.TagMemory.viewAt`
    * `SizesTags.TagMemory.infosAt`
    * `SizesTags.Handled`
    * `SizesTags.GetTagsOutcome`
    * `SizesTags.VisitOutcome`
    * `SizesTags.SpreadOutcome`

  Main results:
    * `SizesTags.TagMemory.unref_viewAt`
    * `SizesTags.TagMemory.share_effect`
    * `SizesTags.TagMemory.merge_effect`
    * `SizesTags.getTagsWithNewInfo_cases`
    * `SizesTags.visitReference_cases`
    * `SizesTags.spreadInfo_cases`
-/

------------------------------------------------------------
-- Infos
------------------------------------------------------------

namespace MemoryAgent

namespace SizesTags

open RecordStore

namespace TagMemory

variable {m : TagAddresses}
variable {tags tags' : TagMemory}
variable {a b tag : jlong}
variable {f : Tag → Tag}
variable {t : Tag}

/- What is read of the tag at an address, if there is one. -/
def viewAt
    {α : Type}
    (view : Tag → α)
    (m : TagAddresses)
    (tags : TagMemory)
    (a : jlong) : Option α :=
  (tags.dereference m a).map view

/- The infos of the tag at an address, if there is one. -/
def infosAt
    (m : TagAddresses)
    (tags : TagMemory)
    (a : jlong) : Option (List TagInfo) :=
  (tags.dereference m a).map (fun t => t.array.infos)

variable {α : Type}
variable {view : Tag → α}

theorem dereference_congr
    (hSame : tags'.store.get a = tags.store.get a) :
    tags'.dereference m a = tags.dereference m a := by
  unfold dereference
  rw [hSame]

theorem viewAt_congr
    (hSame : tags'.store.get a = tags.store.get a) :
    tags'.viewAt view m a = tags.viewAt view m a := by
  unfold viewAt
  rw [dereference_congr hSame]

theorem viewAt_of_static
    (hStatic : m.isStatic a) :
    tags.viewAt view m a = some (view .initial) := by
  unfold viewAt dereference
  rw [if_pos hStatic]
  rfl

theorem infosAt_of_static
    (hStatic : m.isStatic a) :
    tags.infosAt m a = some [] :=
  viewAt_of_static hStatic

theorem dereference_zero :
    tags.dereference m 0 = none := by
  have hStatic : ¬ m.isStatic 0 := by
    intro hCases
    rcases static_ne m with ⟨hEmpty, hNew, _, _, _, hHeld⟩
    rcases hCases with h | h | h
    · exact hEmpty h.symm
    · exact hNew h.symm
    · exact hHeld h.symm
  unfold dereference
  rw [if_neg hStatic, if_pos rfl]

theorem viewAt_zero :
    tags.viewAt view m 0 = none := by
  unfold viewAt
  rw [dereference_zero]
  rfl

theorem infosAt_zero :
    tags.infosAt m 0 = none :=
  viewAt_zero

------------------------------------------------------------
-- Operations
------------------------------------------------------------

theorem modify_some
    (hModify : tags.modify m tag f = some tags') :
    ¬ m.isStatic tag ∧
      ∃ t, tags.store.get tag = some t ∧
        tags' =
          { tags with store := tags.store.set tag (f t) } := by
  unfold modify at hModify
  split at hModify
  · cases hModify
  · next hStatic =>
      rcases Option.map_eq_some_iff.mp hModify with
        ⟨t, hGet, hEq⟩
      exact ⟨hStatic, t, hGet, hEq.symm⟩

theorem modify_newInfo
    (hModify : tags.modify m tag f = some tags') :
    tags'.tagsWithNewInfo = tags.tagsWithNewInfo := by
  rcases modify_some hModify with ⟨_, t, _, hEq⟩
  rw [hEq]

theorem modify_get
    (hModify : tags.modify m tag f = some tags')
    (a : jlong) :
    tags'.store.get a =
      if a = tag then (tags.store.get tag).map f
      else tags.store.get a := by
  rcases modify_some hModify with ⟨_, t, hGet, hEq⟩
  have hLive : tags.store.get tag ≠ none := by
    rw [hGet]
    exact Option.some_ne_none t
  rw [hEq, hGet]
  exact Store.get_set hLive a

theorem modify_viewAt_of_ne
    (hModify : tags.modify m tag f = some tags')
    (hNe : a ≠ tag) :
    tags'.viewAt view m a = tags.viewAt view m a := by
  apply viewAt_congr
  rw [modify_get hModify, if_neg hNe]

theorem modify_infosAt_of_ne
    (hModify : tags.modify m tag f = some tags')
    (hNe : a ≠ tag) :
    tags'.infosAt m a = tags.infosAt m a :=
  modify_viewAt_of_ne hModify hNe

/- A write to a tag, at its address. -/
theorem modify_viewAt_self
    (view : Tag → α)
    (hModify : tags.modify m tag f = some tags')
    (hZero : tag ≠ 0) :
    ∃ t, tags.dereference m tag = some t ∧
      tags'.viewAt view m tag = some (view (f t)) := by
  rcases modify_some hModify with ⟨hStatic, t, hGet, _⟩
  refine ⟨t, ?_, ?_⟩
  · unfold dereference
    rw [if_neg hStatic, if_neg hZero, hGet]
  · unfold viewAt dereference
    rw [if_neg hStatic, if_neg hZero, modify_get hModify,
      if_pos rfl, hGet]
    rfl

/- A change of what is not read. -/
theorem modify_viewAt
    (hModify : tags.modify m tag f = some tags')
    (hView :
      ∀ t, tags.store.get tag = some t →
        view (f t) = view t)
    (a : jlong) :
    tags'.viewAt view m a = tags.viewAt view m a := by
  by_cases hEq : a = tag
  · rcases modify_some hModify with ⟨hStatic, t, hGet, _⟩
    unfold viewAt dereference
    rw [modify_get hModify, hEq, if_pos rfl,
      if_neg hStatic, if_neg hStatic, hGet]
    split
    · rfl
    · simp [hView t hGet]
  · exact modify_viewAt_of_ne hModify hEq

/- A change of other fields changes no infos. -/
theorem modify_infosAt
    (hModify : tags.modify m tag f = some tags')
    (hArray :
      ∀ t, tags.store.get tag = some t →
        (f t).array = t.array)
    (a : jlong) :
    tags'.infosAt m a = tags.infosAt m a :=
  modify_viewAt hModify
    (fun t hGet => by rw [hArray t hGet]) a

@[simp] theorem new_newInfo :
    (tags.new m t).2.tagsWithNewInfo =
      tags.tagsWithNewInfo :=
  rfl

theorem new_not_reserved :
    (tags.new m t).1 ∉ m.reserved :=
  Store.nextAddress_not_reserved m.alloc

theorem new_get
    (a : jlong) :
    (tags.new m t).2.store.get a =
      if a = (tags.new m t).1 then some t
      else tags.store.get a :=
  Store.get_create m.alloc a

theorem new_get_self :
    tags.store.get (tags.new m t).1 = none :=
  Store.get_nextAddress m.alloc

/- An address that is in use, or that is never used. -/
def InUse
    (m : TagAddresses)
    (tags : TagMemory)
    (a : jlong) : Prop :=
  a ∈ m.reserved ∨ tags.store.get a ≠ none

theorem InUse.of_get
    (hGet : tags.store.get a = some t) :
    tags.InUse m a := by
  apply Or.inr
  rw [hGet]
  exact Option.some_ne_none t

theorem InUse.of_dereference
    (hT : tags.dereference m a = some t) :
    tags.InUse m a := by
  unfold dereference at hT
  split at hT
  · next hStatic =>
      exact Or.inl (mem_reserved_iff.mpr (Or.inr hStatic))
  · split at hT
    · cases hT
    · exact InUse.of_get hT

theorem InUse.ne_new
    (hInUse : tags.InUse m a) :
    a ≠ (tags.new m t).1 := by
  intro hEq
  rcases hInUse with hMem | hLive
  · rw [hEq] at hMem
    exact new_not_reserved hMem
  · rw [hEq] at hLive
    exact hLive new_get_self

theorem new_not_inUse :
    ¬ tags.InUse m (tags.new m t).1 :=
  fun hInUse => hInUse.ne_new rfl

theorem modify_inUse_self
    (hModify : tags.modify m tag f = some tags') :
    tags.InUse m tag := by
  rcases modify_some hModify with ⟨_, _, hGet, _⟩
  exact InUse.of_get hGet

theorem modify_inUse
    (hModify : tags.modify m tag f = some tags')
    (hInUse : tags'.InUse m a) :
    tags.InUse m a := by
  refine hInUse.imp_right ?_
  intro hLive hNone
  apply hLive
  rw [modify_get hModify]
  split
  · next hEq =>
      rw [← hEq, hNone]
      rfl
  · exact hNone

theorem new_viewAt
    (hInUse : tags.InUse m a) :
    (tags.new m t).2.viewAt view m a =
      tags.viewAt view m a := by
  apply viewAt_congr
  rw [new_get, if_neg hInUse.ne_new]

theorem new_infosAt
    (hInUse : tags.InUse m a) :
    (tags.new m t).2.infosAt m a = tags.infosAt m a :=
  new_viewAt hInUse

theorem new_viewAt_self :
    (tags.new m t).2.viewAt view m (tags.new m t).1 =
      some (view t) := by
  have hNot : (tags.new m t).1 ∉ m.reserved :=
    new_not_reserved
  rw [mem_reserved_iff, not_or] at hNot
  unfold viewAt dereference
  rw [if_neg hNot.2, if_neg hNot.1, new_get, if_pos rfl]
  rfl

/- A counted tag is deleted, or its count is lowered. -/
theorem unref_cases
    (hUnref : tags.unref m tag = some tags') :
    (m.isStatic tag ∧ tags' = tags) ∨
      (¬ m.isStatic tag ∧
        ∃ t, tags.store.get tag = some t ∧
          (tags' = tags.deleteTag tag ∨
            tags.modify m tag
                (fun _ => t.decrementRefCount) =
              some tags')) := by
  unfold unref at hUnref
  split at hUnref
  · next hStatic =>
      exact Or.inl ⟨hStatic, (Option.some.inj hUnref).symm⟩
  · next hStatic =>
      rcases Option.bind_eq_some_iff.mp hUnref with
        ⟨t, hGet, hRelease⟩
      refine Or.inr ⟨hStatic, t, hGet, ?_⟩
      unfold release at hRelease
      split at hRelease
      · exact Or.inl (Option.some.inj hRelease).symm
      · exact Or.inr hRelease

theorem unref_newInfo
    (hUnref : tags.unref m tag = some tags') :
    tags'.tagsWithNewInfo = tags.tagsWithNewInfo := by
  rcases unref_cases hUnref with
    ⟨_, hSame⟩ | ⟨_, t, _, hDeleted | hModify⟩
  · rw [hSame]
  · rw [hDeleted]
    rfl
  · exact modify_newInfo hModify

theorem unref_get_of_ne
    (hUnref : tags.unref m tag = some tags')
    (hNe : a ≠ tag) :
    tags'.store.get a = tags.store.get a := by
  rcases unref_cases hUnref with
    ⟨_, hSame⟩ | ⟨_, t, _, hDeleted | hModify⟩
  · rw [hSame]
  · rw [hDeleted]
    exact (Store.get_delete a).trans (if_neg hNe)
  · rw [modify_get hModify, if_neg hNe]

/- What is read does not depend on the count. -/
def Uncounted (view : Tag → α) : Prop :=
  ∀ (t : Tag) refCount,
    view { t with refCount := refCount } = view t

/- A tag that is still in use reads the same. -/
theorem unref_viewAt
    (hView : Uncounted view)
    (hUnref : tags.unref m tag = some tags')
    (hInUse : tags'.InUse m a) :
    tags'.viewAt view m a = tags.viewAt view m a := by
  by_cases hEq : a = tag
  · rcases unref_cases hUnref with
      ⟨_, hSame⟩ | ⟨hStatic, t, hGet, hDeleted | hModify⟩
    · rw [hSame]
    · rw [hDeleted] at hInUse ⊢
      rcases hInUse with hMem | hLive
      · rcases mem_reserved_iff.mp hMem with hZero | hS
        · unfold viewAt dereference
          rw [hEq] at hZero ⊢
          rw [if_neg hStatic, if_neg hStatic,
            if_pos hZero, if_pos hZero]
        · rw [hEq] at hS
          exact absurd hS hStatic
      · exact absurd
          ((Store.get_delete a).trans (if_pos hEq)) hLive
    · apply modify_viewAt hModify
      intro r hR
      rw [hGet] at hR
      rw [← Option.some.inj hR]
      exact hView t _
  · exact viewAt_congr (unref_get_of_ne hUnref hEq)

theorem unref_infosAt
    (hUnref : tags.unref m tag = some tags')
    (hInUse : tags'.InUse m a) :
    tags'.infosAt m a = tags.infosAt m a :=
  unref_viewAt (fun _ _ => rfl) hUnref hInUse

theorem ref_newInfo
    (hRef : tags.ref m tag = some tags') :
    tags'.tagsWithNewInfo = tags.tagsWithNewInfo :=
  modify_newInfo hRef

/- A start tag is copied, another tag is counted. -/
theorem share_cases
    (hShare : tags.share m tag = some (b, tags')) :
    ∃ t, tags.dereference m tag = some t ∧
      ((t.isStartTag = true ∧
          tags.new m t.copyWithoutStartMarks = (b, tags')) ∨
        (t.isStartTag = false ∧ b = tag ∧
          tags.ref m tag = some tags')) := by
  unfold share at hShare
  rcases Option.bind_eq_some_iff.mp hShare with
    ⟨t, hT, hBranch⟩
  refine ⟨t, hT, ?_⟩
  split at hBranch
  · next hStart =>
      exact Or.inl ⟨hStart, Option.some.inj hBranch⟩
  · next hStart =>
      rcases Option.bind_eq_some_iff.mp hBranch with
        ⟨next, hRef, hEq⟩
      cases hEq
      exact Or.inr ⟨Bool.eq_false_iff.mpr hStart, rfl, hRef⟩

/- The shared tag is the same one or a new one. -/
theorem share_effect
    (hShare : tags.share m tag = some (b, tags')) :
    tags'.tagsWithNewInfo = tags.tagsWithNewInfo ∧
      (b = tag ∨ ¬ tags.InUse m b) ∧
      ∀ a, tags.InUse m a →
        tags'.infosAt m a = tags.infosAt m a := by
  rcases share_cases hShare with
    ⟨t, _, ⟨_, hNew⟩ | ⟨_, hB, hRef⟩⟩
  · cases hNew
    exact ⟨rfl, Or.inr
      (new_not_inUse (t := t.copyWithoutStartMarks)),
      fun a hInUse => new_infosAt hInUse⟩
  · exact ⟨ref_newInfo hRef, Or.inl hB,
      fun a _ =>
        modify_infosAt hRef
          (fun t _ => Tag.incrementRefCount_array t) a⟩

theorem merge_cases
    {referrer : jlong}
    (hMerge :
      tags.merge m tag referrer = some (b, tags')) :
    ∃ t r, tags.dereference m tag = some t ∧
      tags.dereference m referrer = some r ∧
      b = (tags.new m (.ofMerge t r)).1 ∧
      (tags.new m (.ofMerge t r)).2.unref m tag =
        some tags' := by
  unfold merge at hMerge
  simp only [Option.bind_eq_bind, Option.bind_eq_some_iff]
    at hMerge
  rcases hMerge with ⟨t, hT, r, hR, next, hUnref, hEq⟩
  cases hEq
  exact ⟨t, r, hT, hR, rfl, hUnref⟩

/- A merged tag is new. -/
theorem merge_effect
    {referrer : jlong}
    (hMerge :
      tags.merge m tag referrer = some (b, tags')) :
    tags'.tagsWithNewInfo = tags.tagsWithNewInfo ∧
      ¬ tags.InUse m b ∧
      ∀ a, tags.InUse m a → tags'.InUse m a →
        tags'.infosAt m a = tags.infosAt m a := by
  rcases merge_cases hMerge with ⟨t, r, _, _, hB, hUnref⟩
  rw [hB]
  refine ⟨(unref_newInfo hUnref).trans new_newInfo,
    new_not_inUse, ?_⟩
  intro a hInUse hInUse'
  exact (unref_infosAt hUnref hInUse').trans
    (new_infosAt hInUse)

/- Nothing is written, or the tag can be written to. -/
theorem visitFromUntaggedReferrer_cases
    (hVisit :
      tags.visitFromUntaggedReferrer m tag = some tags') :
    ∃ t, tags.dereference m tag = some t ∧
      ((t.array.infos = [] ∧ tags' = tags) ∨
        (tag ≠ 0 ∧
          tags.modify m tag
              (fun t =>
                { t with
                  array :=
                    t.array.map asVisitedFromUntagged }) =
            some tags')) := by
  unfold visitFromUntaggedReferrer at hVisit
  rcases Option.bind_eq_some_iff.mp hVisit with
    ⟨t, hT, hBranch⟩
  refine ⟨t, hT, ?_⟩
  split at hBranch
  · next hEmpty =>
      exact Or.inl ⟨hEmpty, (Option.some.inj hBranch).symm⟩
  · refine Or.inr ⟨?_, hBranch⟩
    intro hZero
    rcases modify_some hBranch with ⟨hStatic, _⟩
    unfold dereference at hT
    rw [if_neg hStatic, if_pos hZero] at hT
    cases hT

/- No infos are marked, or those of one tag. -/
theorem visitFromUntaggedReferrer_effect
    (hVisit :
      tags.visitFromUntaggedReferrer m tag = some tags') :
    tags'.tagsWithNewInfo = tags.tagsWithNewInfo ∧
      (∀ a, a ≠ tag →
        tags'.infosAt m a = tags.infosAt m a) ∧
      ∃ infos, tags.infosAt m tag = some infos ∧
        tags'.infosAt m tag =
          some (infos.map
            (fun info =>
              ⟨info.index,
                asVisitedFromUntagged info.state⟩)) := by
  rcases visitFromUntaggedReferrer_cases hVisit with
    ⟨t, hT, hCases⟩
  have hInfos : tags.infosAt m tag = some t.array.infos := by
    unfold infosAt
    rw [hT]
    rfl
  rcases hCases with ⟨hEmpty, hSame⟩ | ⟨hZero, hModify⟩
  · rw [hSame]
    refine ⟨rfl, fun _ _ => rfl, [], ?_, ?_⟩
    · rw [hInfos, hEmpty]
    · rw [hInfos, hEmpty]
      rfl
  · rcases modify_viewAt_self (fun t => t.array.infos)
        hModify hZero with ⟨r, hR, hView⟩
    rw [hT] at hR
    rw [← Option.some.inj hR] at hView
    exact ⟨modify_newInfo hModify,
      fun a hNe => modify_infosAt_of_ne hModify hNe,
      t.array.infos, hInfos, hView⟩

end TagMemory

------------------------------------------------------------
-- Outcomes
------------------------------------------------------------

section Outcomes

variable {m : TagAddresses}
variable {args : ReferenceArguments jlong}
variable {tags tags' : TagMemory}
variable {a b : jlong}
variable {handled setTagsWithNewInfo : Bool}

/- The referrer is a root or carries the empty tag. -/
def FromUntagged
    (m : TagAddresses)
    (referrerTag : Option jlong) : Prop :=
  referrerTag = none ∨ referrerTag = some m.emptyTag

instance
    (m : TagAddresses)
    (referrerTag : Option jlong) :
    Decidable (FromUntagged m referrerTag) := by
  unfold FromUntagged
  infer_instance

/- The referrer carries a tag that may have infos. -/
def Informed
    (m : TagAddresses)
    (referrerTag : Option jlong)
    (r : jlong) : Prop :=
  referrerTag = some r ∧ r ≠ m.emptyTag ∧
    r ≠ m.tagWithNewInfo ∧ r ≠ 0

/- What the referrers without infos do to a referree. -/
inductive Handled
    (m : TagAddresses)
    (referrerTag : Option jlong)
    (setTagsWithNewInfo : Bool)
    (a : jlong)
    (tags : TagMemory) : jlong → TagMemory → Prop
  | keep :
      ¬ FromUntagged m referrerTag ∨ a = m.emptyTag →
        Handled m referrerTag setTagsWithNewInfo a tags a
          tags
  | empty :
      a = 0 →
        Handled m referrerTag setTagsWithNewInfo a tags
          m.emptyTag tags
  | reset {tags' : TagMemory} :
      setTagsWithNewInfo = true →
        tags.unref m a = some tags' →
          Handled m referrerTag setTagsWithNewInfo a tags
            m.tagWithNewInfo tags'
  | visit {t : Tag} {tags' : TagMemory} :
      FromUntagged m referrerTag → a ≠ 0 →
        a ≠ m.emptyTag → tags.dereference m a = some t →
        ¬ (setTagsWithNewInfo = true ∧
          t.alreadyReferred = true) →
        tags.visitFromUntaggedReferrer m a = some tags' →
          Handled m referrerTag setTagsWithNewInfo a tags a
            tags'

theorem untagged_cases
    {referrerTag : Option jlong}
    (hFrom : FromUntagged m referrerTag)
    (hSome :
      handleReferrersWithNoInfo.untagged m a
          setTagsWithNewInfo tags =
        some (handled, b, tags')) :
    handled = true ∧
      Handled m referrerTag setTagsWithNewInfo a tags b
        tags' := by
  unfold handleReferrersWithNoInfo.untagged at hSome
  split at hSome
  · next hZero =>
      cases hSome
      exact ⟨rfl, .empty hZero⟩
  · next hZero =>
      split at hSome
      · next hEmpty =>
          cases hSome
          exact ⟨rfl, .keep (Or.inr hEmpty)⟩
      · next hEmpty =>
          rcases Option.bind_eq_some_iff.mp hSome with
            ⟨t, hT, hBranch⟩
          split at hBranch
          · next hReset =>
              rcases Option.bind_eq_some_iff.mp hBranch with
                ⟨next, hUnref, hEq⟩
              cases hEq
              exact ⟨rfl, .reset hReset.1 hUnref⟩
          · next hReset =>
              rcases Option.bind_eq_some_iff.mp hBranch with
                ⟨next, hVisit, hEq⟩
              cases hEq
              exact ⟨rfl, .visit hFrom hZero hEmpty hT
                hReset hVisit⟩

theorem handleReferrersWithNoInfo_cases
    {referrerTag : Option jlong}
    (hSome :
      handleReferrersWithNoInfo m referrerTag a
          setTagsWithNewInfo tags =
        some (handled, b, tags')) :
    (handled = true ∧
        Handled m referrerTag setTagsWithNewInfo a tags b
          tags') ∨
      (handled = false ∧ b = a ∧ tags' = tags ∧
        ∃ r, Informed m referrerTag r) := by
  unfold handleReferrersWithNoInfo at hSome
  cases referrerTag with
  | none => exact Or.inl (untagged_cases (Or.inl rfl) hSome)
  | some r =>
      dsimp only at hSome
      split at hSome
      · next hEmpty =>
          apply Or.inl
          apply untagged_cases _ hSome
          exact Or.inr (congrArg some hEmpty)
      · next hEmpty =>
          have hNot : ¬ FromUntagged m (some r) := by
            intro hFrom
            rcases hFrom with hNone | hSame
            · cases hNone
            · exact hEmpty (Option.some.inj hSame)
          split at hSome
          · cases hSome
            exact Or.inl ⟨rfl, .keep (Or.inl hNot)⟩
          · next hSkip =>
              rw [not_or] at hSkip
              rcases Option.bind_eq_some_iff.mp hSome with
                ⟨classTag, _, hEq⟩
              cases hEq
              cases hClass : classTag.isSome with
              | true =>
                  exact Or.inl ⟨rfl, .keep (Or.inl hNot)⟩
              | false =>
                  exact Or.inr ⟨rfl, rfl, rfl, r, rfl,
                    hEmpty, hSkip⟩

/- What `getTagsWithNewInfo` does with a reference. -/
inductive GetTagsOutcome
    (m : TagAddresses)
    (args : ReferenceArguments jlong)
    (tags : TagMemory) : jlong → TagMemory → Prop
  | keep : GetTagsOutcome m args tags args.tag tags
  | handled {b : jlong} {tags' : TagMemory} :
      Handled m args.referrerTag true args.tag tags b
        tags' →
        GetTagsOutcome m args tags b tags'
  | share {r b : jlong} {tags₁ tags' : TagMemory} :
      Informed m args.referrerTag r → args.tag = 0 →
        tags.share m r = some (b, tags₁) →
        tags₁.setAlreadyReferred m r = some tags' →
          GetTagsOutcome m args tags b tags'
  | reset {r : jlong} {tags₁ tags' : TagMemory} :
      Informed m args.referrerTag r →
        tags.unref m args.tag = some tags₁ →
        tags₁.setAlreadyReferred m r = some tags' →
          GetTagsOutcome m args tags m.tagWithNewInfo tags'
  | merge {r b : jlong} {tags₁ tags' : TagMemory} :
      Informed m args.referrerTag r →
        tags.merge m args.tag r = some (b, tags₁) →
        tags₁.setAlreadyReferred m r = some tags' →
          GetTagsOutcome m args tags b tags'
  | refer {r : jlong} {tags' : TagMemory} :
      Informed m args.referrerTag r →
        tags.setAlreadyReferred m r = some tags' →
          GetTagsOutcome m args tags args.tag tags'

theorem getTagsWithNewInfo_cases
    (hSome :
      SizesTags.getTagsWithNewInfo m args tags =
        some (b, tags')) :
    GetTagsOutcome m args tags b tags' := by
  unfold SizesTags.getTagsWithNewInfo at hSome
  split at hSome
  · cases hSome
    exact .keep
  · rcases Option.bind_eq_some_iff.mp hSome with
      ⟨⟨handled, b₁, tags₁⟩, hHandle, hBranch⟩
    rcases handleReferrersWithNoInfo_cases hHandle with
      ⟨hEq, hHandled⟩ | ⟨hEq, hB, hTags, r, hInformed⟩
    · subst hEq
      cases hBranch
      exact .handled hHandled
    · subst hEq hB hTags
      simp only [hInformed.1, Bool.false_eq_true, if_false,
        Option.bind_eq_bind, Option.bind_some] at hBranch
      split at hBranch
      · next hZero =>
          simp only [Option.bind_eq_some_iff] at hBranch
          rcases hBranch with
            ⟨⟨b₂, tags₂⟩, hShare, tags₃, hSet, hEq⟩
          cases hEq
          exact .share hInformed hZero hShare hSet
      · rcases Option.bind_eq_some_iff.mp hBranch with
          ⟨valid, _, hBranch⟩
        split at hBranch
        · rcases Option.bind_eq_some_iff.mp hBranch with
            ⟨t, _, hBranch⟩
          split at hBranch
          · rcases Option.bind_eq_some_iff.mp hBranch with
              ⟨tags₂, hUnref, hBranch⟩
            rcases Option.bind_eq_some_iff.mp hBranch with
              ⟨tags₃, hSet, hEq⟩
            cases hEq
            exact .reset hInformed hUnref hSet
          · rcases Option.bind_eq_some_iff.mp hBranch with
              ⟨⟨b₂, tags₂⟩, hMerge, hBranch⟩
            rcases Option.bind_eq_some_iff.mp hBranch with
              ⟨tags₃, hSet, hEq⟩
            cases hEq
            exact .merge hInformed hMerge hSet
        · rcases Option.bind_eq_some_iff.mp hBranch with
            ⟨tags₃, hSet, hEq⟩
          cases hEq
          exact .refer hInformed hSet

/- What `visitReference` does with a reference. -/
inductive VisitOutcome
    (m : TagAddresses)
    (args : ReferenceArguments jlong)
    (tags : TagMemory) : jlong → TagMemory → Prop
  | jni :
      args.refKind.isJni = true →
        VisitOutcome m args tags args.tag tags
  | handled {b : jlong} {tags' : TagMemory} :
      args.refKind.isJni = false →
        Handled m args.referrerTag false args.tag tags b
          tags' →
        VisitOutcome m args tags b tags'
  | share {r b : jlong} {tags' : TagMemory} :
      Informed m args.referrerTag r → args.tag = 0 →
        tags.share m r = some (b, tags') →
          VisitOutcome m args tags b tags'
  | retag {r b : jlong} {tags' : TagMemory} :
      Informed m args.referrerTag r →
        args.tag = m.tagWithNewInfo →
        tags.share m r = some (b, tags') →
          VisitOutcome m args tags b (tags'.insertNewInfo b)
  | merge {r b : jlong} {tags' : TagMemory} :
      Informed m args.referrerTag r →
        (tags.eraseNewInfo args.tag).merge m args.tag r =
          some (b, tags') →
          VisitOutcome m args tags b (tags'.insertNewInfo b)
  | keep {r : jlong} :
      Informed m args.referrerTag r →
        VisitOutcome m args tags args.tag tags

theorem visitReference_cases
    (hSome :
      SizesTags.visitReference m args tags =
        some (b, tags')) :
    VisitOutcome m args tags b tags' := by
  unfold SizesTags.visitReference at hSome
  split at hSome
  · next hJni =>
      cases hSome
      exact .jni hJni
  · next hJni =>
      rw [Bool.not_eq_true] at hJni
      rcases Option.bind_eq_some_iff.mp hSome with
        ⟨⟨handled, b₁, tags₁⟩, hHandle, hBranch⟩
      rcases handleReferrersWithNoInfo_cases hHandle with
        ⟨hEq, hHandled⟩ | ⟨hEq, hB, hTags, r, hInformed⟩
      · subst hEq
        cases hBranch
        exact .handled hJni hHandled
      · subst hEq hB hTags
        simp only [hInformed.1, Bool.false_eq_true,
          if_false, Option.bind_eq_bind, Option.bind_some]
          at hBranch
        split at hBranch
        · next hZero =>
            exact .share hInformed hZero hBranch
        · split at hBranch
          · next hNew =>
              rcases Option.bind_eq_some_iff.mp hBranch with
                ⟨⟨b₂, tags₂⟩, hShare, hEq⟩
              cases hEq
              exact .retag hInformed hNew hShare
          · rcases Option.bind_eq_some_iff.mp hBranch with
              ⟨valid, _, hBranch⟩
            split at hBranch
            · rcases Option.bind_eq_some_iff.mp hBranch with
                ⟨⟨b₂, tags₂⟩, hMerge, hEq⟩
              cases hEq
              exact .merge hInformed hMerge
            · cases hBranch
              exact .keep hInformed

/- What `spreadInfo` does with a reference. -/
inductive SpreadOutcome
    (m : TagAddresses)
    (args : ReferenceArguments jlong)
    (tags : TagMemory) : jlong → TagMemory → Prop
  | keep : SpreadOutcome m args tags args.tag tags
  | erase :
      SpreadOutcome m args tags args.tag
        (tags.eraseNewInfo args.tag)
  | merge {r b : jlong} {tags' : TagMemory} :
      args.referrerTag = some r →
        (tags.eraseNewInfo args.tag).merge m args.tag r =
          some (b, tags') →
          SpreadOutcome m args tags b tags'

theorem spreadInfo_cases
    (hSome :
      SizesTags.spreadInfo m args tags =
        some (b, tags')) :
    SpreadOutcome m args tags b tags' := by
  unfold SizesTags.spreadInfo at hSome
  split at hSome
  · cases hSome
    exact .keep
  · rcases Option.bind_eq_some_iff.mp hSome with
      ⟨r, hR, hBranch⟩
    split at hBranch
    · cases hBranch
      exact .keep
    · dsimp only at hBranch
      split at hBranch
      · cases hBranch
        exact .erase
      · rcases Option.bind_eq_some_iff.mp hBranch with
          ⟨merged, _, hBranch⟩
        split at hBranch
        · exact .merge hR hBranch
        · cases hBranch
          exact .erase

end Outcomes

end SizesTags

end MemoryAgent
