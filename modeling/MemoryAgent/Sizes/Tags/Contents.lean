import MemoryAgent.Sizes.Tags.Frame
import MemoryAgent.Sizes.Tags.MergedInfos

/-
  What the callbacks do to the contents of tags: the infos,
  and whether the tag is one of a start object.  Each outcome
  is stated for the objects that carry the tags.

  Key definitions include:
    * `SizesTags.Content`
    * `SizesTags.Reshaped`

  Main results:
    * `SizesTags.getTagsWithNewInfo_reshaped`
    * `SizesTags.visitReference_reshaped`
    * `SizesTags.spreadInfo_reshaped`
-/

------------------------------------------------------------
-- Contents
------------------------------------------------------------

namespace MemoryAgent

namespace SizesTags

open RecordStore TagMemory

structure Content where
  infos : List TagInfo
  isStartTag : Bool
deriving DecidableEq, Repr

namespace Content

def empty : Content :=
  ⟨[], false⟩

/- After a visit from an untagged referrer. -/
def visited (c : Content) : Content :=
  ⟨c.infos.map
    (fun info =>
      ⟨info.index, asVisitedFromUntagged info.state⟩),
    c.isStartTag⟩

end Content

def Tag.content (t : Tag) : Content :=
  ⟨t.array.infos, t.isStartTag⟩

abbrev TagMemory.contentAt
    (m : TagAddresses)
    (tags : TagMemory)
    (a : jlong) : Option Content :=
  tags.viewAt Tag.content m a

section Operations

variable {m : TagAddresses}
variable {tags tags' : TagMemory}
variable {a b : jlong}

theorem content_uncounted :
    Uncounted Tag.content :=
  fun _ _ => rfl

theorem contentAt_of_static
    (hStatic : m.isStatic a) :
    tags.contentAt m a = some Content.empty :=
  viewAt_of_static hStatic

theorem exists_contentAt
    {t : Tag}
    (hT : tags.dereference m a = some t) :
    tags.contentAt m a = some t.content := by
  unfold TagMemory.contentAt viewAt
  rw [hT]
  rfl

theorem setAlreadyReferred_contentAt
    (hSet : tags.setAlreadyReferred m a = some tags')
    (c : jlong) :
    tags'.contentAt m c = tags.contentAt m c :=
  modify_viewAt hSet (fun _ _ => rfl) c

theorem visitFromUntaggedReferrer_contentAt
    (hVisit :
      tags.visitFromUntaggedReferrer m a = some tags') :
    (∀ c, c ≠ a →
        tags'.contentAt m c = tags.contentAt m c) ∧
      tags'.contentAt m a =
        (tags.contentAt m a).map Content.visited := by
  rcases visitFromUntaggedReferrer_cases hVisit with
    ⟨t, hT, ⟨hEmpty, hSame⟩ | ⟨hZero, hModify⟩⟩
  · rw [hSame]
    refine ⟨fun _ _ => rfl, ?_⟩
    rw [exists_contentAt hT]
    simp [Tag.content, Content.visited, hEmpty]
  · refine ⟨fun c hNe => modify_viewAt_of_ne hModify hNe, ?_⟩
    rcases modify_viewAt_self Tag.content hModify hZero with
      ⟨r, hR, hView⟩
    rw [exists_contentAt hR]
    exact hView

/- A shared tag is the same one, or a copy of a start tag. -/
theorem share_contentAt
    (hShare : tags.share m a = some (b, tags')) :
    ∃ t : Tag, tags.contentAt m a = some t.content ∧
      ((b = a ∧ t.isStartTag = false ∧
          ∀ c, tags'.contentAt m c = tags.contentAt m c) ∨
        (¬ tags.InUse m b ∧
          tags'.contentAt m b =
            some t.copyWithoutStartMarks.content ∧
          ∀ c, tags.InUse m c →
            tags'.contentAt m c = tags.contentAt m c)) := by
  rcases share_cases hShare with
    ⟨t, hT, ⟨_, hNew⟩ | ⟨hStart, hB, hRef⟩⟩
  · cases hNew
    exact ⟨t, exists_contentAt hT, Or.inr
      ⟨new_not_inUse (t := t.copyWithoutStartMarks),
        new_viewAt_self, fun c hInUse => new_viewAt hInUse⟩⟩
  · exact ⟨t, exists_contentAt hT, Or.inl ⟨hB, hStart,
      fun c => modify_viewAt hRef (fun _ _ => rfl) c⟩⟩

theorem merge_contentAt
    {referrer : jlong}
    (hMerge :
      tags.merge m a referrer = some (b, tags')) :
    ∃ t r : Tag, tags.contentAt m a = some t.content ∧
      tags.contentAt m referrer = some r.content ∧
      ¬ tags.InUse m b ∧
      (tags'.InUse m b →
        tags'.contentAt m b =
          some (Tag.ofMerge t r).content) ∧
      ∀ c, tags.InUse m c → tags'.InUse m c →
        tags'.contentAt m c = tags.contentAt m c := by
  rcases merge_cases hMerge with ⟨t, r, hT, hR, hB, hUnref⟩
  rw [hB]
  refine ⟨t, r, exists_contentAt hT, exists_contentAt hR,
    new_not_inUse, ?_, ?_⟩
  · intro hInUse
    rw [TagMemory.contentAt,
      unref_viewAt content_uncounted hUnref hInUse]
    exact new_viewAt_self
  · intro c hInUse hInUse'
    rw [TagMemory.contentAt,
      unref_viewAt content_uncounted hUnref hInUse']
    exact new_viewAt hInUse

end Operations

------------------------------------------------------------
-- Outcomes
------------------------------------------------------------

section Outcomes

variable {O : Type}

/- The address is new: no object carries it. -/
def Fresh
    (m : TagAddresses)
    (tag : O → jlong)
    (b : jlong) : Prop :=
  b ∉ m.reserved ∧ ∀ p, tag p ≠ b

/- The contents of the other objects' tags are the same. -/
def SameContents
    (m : TagAddresses)
    (tag : O → jlong)
    (o : O)
    (tags tags' : TagMemory) : Prop :=
  ∀ p, p ≠ o →
    tags'.contentAt m (tag p) = tags.contentAt m (tag p)

/-
  What a reference callback does to the tag of `o` and to the
  contents of all tags.  The first traversal `resets` tags to
  the static `TagWithNewInfo`, the others may replace it.
-/
inductive Reshaped
    (m : TagAddresses)
    (tag : O → jlong)
    (tags : TagMemory)
    (o : O)
    (resets : Bool) : jlong → TagMemory → Prop
  | keep {tags' : TagMemory} :
      (∀ p, tags'.contentAt m (tag p) =
        tags.contentAt m (tag p)) →
        Reshaped m tag tags o resets (tag o) tags'
  | empty {tags' : TagMemory} :
      tag o = 0 → SameContents m tag o tags tags' →
        Reshaped m tag tags o resets m.emptyTag tags'
  | reset {tags' : TagMemory} :
      resets = true → SameContents m tag o tags tags' →
        Reshaped m tag tags o resets m.tagWithNewInfo tags'
  | visit {tags' : TagMemory} :
      (∀ p, tag p ≠ tag o →
        tags'.contentAt m (tag p) =
          tags.contentAt m (tag p)) →
        tags'.contentAt m (tag o) =
            (tags.contentAt m (tag o)).map
              Content.visited →
          Reshaped m tag tags o resets (tag o) tags'
  | share {q : O} {c : Content} {tags' : TagMemory} :
      tag o = 0 ∨ resets = false ∧ tag o = m.tagWithNewInfo →
        tag q ∉ m.reserved →
          tags.contentAt m (tag q) = some c →
            c.isStartTag = false →
              (∀ p, tags'.contentAt m (tag p) =
                tags.contentAt m (tag p)) →
                Reshaped m tag tags o resets (tag q) tags'
  | copy {q : O} {t : Tag} {b : jlong}
      {tags' : TagMemory} :
      tag o = 0 ∨ resets = false ∧ tag o = m.tagWithNewInfo →
        tags.contentAt m (tag q) = some t.content →
          Fresh m tag b → SameContents m tag o tags tags' →
            tags'.contentAt m b =
                some t.copyWithoutStartMarks.content →
              Reshaped m tag tags o resets b tags'
  | merge {q : O} {t r : Tag} {b : jlong}
      {tags' : TagMemory} :
      (resets = true → tag o ≠ m.tagWithNewInfo) →
        tags.contentAt m (tag o) = some t.content →
          tags.contentAt m (tag q) = some r.content →
            Fresh m tag b →
              SameContents m tag o tags tags' →
                tags'.contentAt m b =
                    some (Tag.ofMerge t r).content →
                  Reshaped m tag tags o resets b tags'

variable {m : TagAddresses}
variable {tag : O → jlong}
variable {tags tags' tags₁ : TagMemory}
variable {args : ReferenceArguments jlong}
variable {o q : O}
variable {b : jlong}
variable {resets : Bool}
variable [Fintype O]
variable [DecidableEq O]

omit [DecidableEq O] in
theorem Owned.fresh
    (hOwned : Owned m tag tags)
    (hNot : ¬ tags.InUse m b) :
    Fresh m tag b := by
  refine ⟨fun hMem => hNot (Or.inl hMem), ?_⟩
  intro p hEq
  rw [← hEq] at hNot
  exact hNot (hOwned.inUse p)

theorem Handled.reshaped
    {referrerTag : Option jlong}
    (hHandled :
      Handled m referrerTag resets (tag o) tags b tags')
    (hNext : Owned m (Function.update tag o b) tags') :
    Reshaped m tag tags o resets b tags' := by
  cases hHandled with
  | keep _ => exact .keep (fun _ => rfl)
  | empty hZero => exact .empty hZero (fun _ _ => rfl)
  | reset hResets hUnref =>
      exact .reset hResets (fun p hNe =>
        unref_viewAt content_uncounted hUnref
          (hNext.inUse_of_ne hNe))
  | visit _ _ _ _ _ hVisit =>
      rcases visitFromUntaggedReferrer_contentAt hVisit with
        ⟨hOthers, hSelf⟩
      exact .visit (fun p hNe => hOthers (tag p) hNe) hSelf

omit [DecidableEq O] in
/- Sharing the tag of `q`, and then perhaps marking it. -/
theorem Owned.reshaped_share
    (hOwned : Owned m tag tags)
    (hUnset :
      tag o = 0 ∨
        resets = false ∧ tag o = m.tagWithNewInfo)
    (hReferrer : tag q ∉ m.reserved)
    (hShare : tags.share m (tag q) = some (b, tags₁))
    (hSame :
      ∀ c, tags'.contentAt m c = tags₁.contentAt m c) :
    Reshaped m tag tags o resets b tags' := by
  rcases share_contentAt hShare with
    ⟨t, hT, ⟨hEq, hStart, hAll⟩ | ⟨hNot, hCopy, hAll⟩⟩
  · rw [hEq]
    refine .share hUnset hReferrer hT hStart ?_
    intro p
    rw [hSame, hAll]
  · refine .copy hUnset hT (hOwned.fresh hNot) ?_ ?_
    · intro p _
      rw [hSame, hAll (tag p) (hOwned.inUse p)]
    · rw [hSame, hCopy]

/- Merging with the tag of `q`, in a memory with the same tags. -/
theorem Owned.reshaped_merge
    {tags₀ : TagMemory}
    (hOwned : Owned m tag tags)
    (hResets : resets = true → tag o ≠ m.tagWithNewInfo)
    (hMerge :
      tags₀.merge m (tag o) (tag q) = some (b, tags₁))
    (hStore : tags₀.store = tags.store)
    (hSame :
      ∀ c, tags'.contentAt m c = tags₁.contentAt m c)
    (hInUse : ∀ c, tags'.InUse m c → tags₁.InUse m c)
    (hNext : Owned m (Function.update tag o b) tags') :
    Reshaped m tag tags o resets b tags' := by
  have hBefore :
      ∀ c, tags₀.contentAt m c = tags.contentAt m c := by
    intro c
    apply viewAt_congr
    rw [hStore]
  have hKept : ∀ c, tags.InUse m c → tags₀.InUse m c := by
    intro c hInUse
    unfold InUse at hInUse ⊢
    rw [hStore]
    exact hInUse
  rcases merge_contentAt hMerge with
    ⟨t, r, hT, hR, hNot, hMerged, hAll⟩
  rw [hBefore] at hT hR
  have hInUseB := hNext.inUse o
  rw [Function.update_self] at hInUseB
  refine .merge hResets hT hR
    (hOwned.fresh (fun h => hNot (hKept b h))) ?_ ?_
  · intro p hNe
    rw [hSame, hAll (tag p) (hKept _ (hOwned.inUse p))
      (hInUse _ (hNext.inUse_of_ne hNe)), hBefore]
  · rw [hSame, hMerged (hInUse _ hInUseB)]

omit [DecidableEq O] in
/- A referrer with infos is a carrier of its tag. -/
theorem Informed.exists_carrier
    {r : jlong}
    (hOwned : Owned m tag tags)
    (hReferrer :
      ∀ a, args.referrerTag = some a → ∃ p, tag p = a)
    (hInformed : Informed m args.referrerTag r) :
    ∃ q, tag q = r ∧ tag q ∉ m.reserved := by
  rcases hInformed with ⟨hArg, hEmpty, hNew, hZero⟩
  rcases hReferrer r hArg with ⟨q, hQ⟩
  refine ⟨q, hQ, ?_⟩
  intro hMem
  simp only [TagAddresses.reserved, List.mem_cons,
    List.not_mem_nil, or_false] at hMem
  rcases hMem with h | h | h | h
  · exact hZero (hQ.symm.trans h)
  · exact hEmpty (hQ.symm.trans h)
  · exact hNew (hQ.symm.trans h)
  · exact hOwned.not_held q h

theorem getTagsWithNewInfo_reshaped
    (hOwned : Owned m tag tags)
    (hTag : args.tag = tag o)
    (hReferrer :
      ∀ a, args.referrerTag = some a → ∃ p, tag p = a)
    (hSome :
      SizesTags.getTagsWithNewInfo m args tags =
        some (b, tags'))
    (hNext : Owned m (Function.update tag o b) tags') :
    Reshaped m tag tags o true b tags' := by
  by_cases hNew : tag o = m.tagWithNewInfo
  · unfold SizesTags.getTagsWithNewInfo at hSome
    rw [if_pos (Or.inr (hTag.trans hNew))] at hSome
    cases hSome
    rw [hTag]
    exact .keep (fun _ => rfl)
  · cases getTagsWithNewInfo_cases hSome with
    | keep =>
        rw [hTag]
        exact .keep (fun _ => rfl)
    | handled hHandled =>
        rw [hTag] at hHandled
        exact hHandled.reshaped hNext
    | share hInformed hZero hShare hSet =>
        rcases hInformed.exists_carrier hOwned hReferrer with
          ⟨q, hQ, hNot⟩
        rw [← hQ] at hShare
        exact hOwned.reshaped_share
          (Or.inl (hTag.symm.trans hZero)) hNot hShare
          (setAlreadyReferred_contentAt hSet)
    | reset _ hUnref hSet =>
        refine .reset rfl ?_
        intro p hNe
        rw [setAlreadyReferred_contentAt hSet]
        exact unref_viewAt content_uncounted hUnref
          (modify_inUse hSet (hNext.inUse_of_ne hNe))
    | merge hInformed hMerge hSet =>
        rcases hInformed.exists_carrier hOwned hReferrer with
          ⟨q, hQ, _⟩
        rw [← hQ, hTag] at hMerge
        exact hOwned.reshaped_merge (fun _ => hNew) hMerge rfl
          (setAlreadyReferred_contentAt hSet)
          (fun _ => modify_inUse hSet) hNext
    | refer _ hSet =>
        rw [hTag]
        exact .keep (fun p =>
          setAlreadyReferred_contentAt hSet (tag p))

theorem visitReference_reshaped
    (hOwned : Owned m tag tags)
    (hTag : args.tag = tag o)
    (hReferrer :
      ∀ a, args.referrerTag = some a → ∃ p, tag p = a)
    (hSome :
      SizesTags.visitReference m args tags =
        some (b, tags'))
    (hNext : Owned m (Function.update tag o b) tags') :
    Reshaped m tag tags o false b tags' := by
  cases visitReference_cases hSome with
  | jni _ =>
      rw [hTag]
      exact .keep (fun _ => rfl)
  | handled _ hHandled =>
      rw [hTag] at hHandled
      exact hHandled.reshaped hNext
  | share hInformed hZero hShare =>
      rcases hInformed.exists_carrier hOwned hReferrer with
        ⟨q, hQ, hNot⟩
      rw [← hQ] at hShare
      exact hOwned.reshaped_share
        (Or.inl (hTag.symm.trans hZero)) hNot hShare
        (fun _ => rfl)
  | retag hInformed hNew hShare =>
      rcases hInformed.exists_carrier hOwned hReferrer with
        ⟨q, hQ, hNot⟩
      rw [← hQ] at hShare
      exact hOwned.reshaped_share
        (Or.inr ⟨rfl, hTag.symm.trans hNew⟩) hNot hShare
        (fun _ => rfl)
  | merge hInformed hMerge =>
      rcases hInformed.exists_carrier hOwned hReferrer with
        ⟨q, hQ, _⟩
      rw [← hQ, hTag] at hMerge
      have hFalse :
          false = true → tag o ≠ m.tagWithNewInfo :=
        fun hEq => absurd hEq Bool.false_ne_true
      exact hOwned.reshaped_merge hFalse hMerge rfl
        (fun _ => viewAt_congr rfl)
        (fun _ hInUse => hInUse) hNext
  | keep _ =>
      rw [hTag]
      exact .keep (fun _ => rfl)

theorem spreadInfo_reshaped
    (hOwned : Owned m tag tags)
    (hTag : args.tag = tag o)
    (hReferrer :
      ∀ a, args.referrerTag = some a → ∃ p, tag p = a)
    (hSome :
      SizesTags.spreadInfo m args tags = some (b, tags'))
    (hNext : Owned m (Function.update tag o b) tags') :
    Reshaped m tag tags o false b tags' := by
  cases spreadInfo_cases hSome with
  | keep =>
      rw [hTag]
      exact .keep (fun _ => rfl)
  | erase =>
      rw [hTag]
      exact .keep (fun _ => rfl)
  | merge hArg hMerge =>
      rcases hReferrer _ hArg with ⟨q, hQ⟩
      rw [← hQ, hTag] at hMerge
      have hFalse :
          false = true → tag o ≠ m.tagWithNewInfo :=
        fun hEq => absurd hEq Bool.false_ne_true
      exact hOwned.reshaped_merge hFalse hMerge rfl
        (fun _ => viewAt_congr rfl)
        (fun _ hInUse => hInUse) hNext

end Outcomes

end SizesTags

end MemoryAgent
