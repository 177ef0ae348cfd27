import MemoryAgent.Memory.Renaming
import MemoryAgent.Sizes.Tags.Effects

/-
  Memories that hold the same tags at different addresses.
  The callbacks only compare addresses with one another and
  with the static tags, and look them up in the set of tags
  with new infos, so that they do the same to both memories.

  Key definitions include:
    * `SizesTags.Alike`
    * `SizesTags.Renamed`
    * `SizesTags.Listed`

  Main results:
    * `SizesTags.Alike.getTagsWithNewInfo`
    * `SizesTags.Alike.visitReference`
    * `SizesTags.Alike.spreadInfo`
    * `SizesTags.Alike.createTagForObject`
    * `SizesTags.Alike.iterate`
-/

------------------------------------------------------------
-- Memories
------------------------------------------------------------

namespace MemoryAgent

namespace SizesTags

open RecordStore TagMemory

/-
  Matching addresses lead to the same tags, and are in the
  set of tags with new infos together.
-/
structure Alike
    (m m' : TagAddresses)
    (rel : jlong → jlong → Prop)
    (tags tags' : TagMemory) : Prop where
  matching : Matches rel tags.store tags'.store
  zero : rel 0 0
  empty : rel m.emptyTag m'.emptyTag
  reset : rel m.tagWithNewInfo m'.tagWithNewInfo
  held : rel m.heldObjectTag m'.heldObjectTag
  newInfo :
    ∀ {a b}, rel a b →
      (a ∈ tags.tagsWithNewInfo ↔ b ∈ tags'.tagsWithNewInfo)

/- The tags with new infos were not deleted. -/
def Listed
    (m : TagAddresses)
    (tags : TagMemory) : Prop :=
  ∀ a ∈ tags.tagsWithNewInfo, tags.InUse m a

/- The addresses in use still match. -/
def Grows
    (m : TagAddresses)
    (tags : TagMemory)
    (rel rel' : jlong → jlong → Prop) : Prop :=
  ∀ {a b}, tags.InUse m a → rel a b → rel' a b

/- What a callback returns in two memories that are alike. -/
def Renamed
    (m m' : TagAddresses)
    (rel : jlong → jlong → Prop)
    (tags : TagMemory)
    (x y : jlong × TagMemory) : Prop :=
  ∃ rel' : jlong → jlong → Prop,
    Alike m m' rel' x.2 y.2 ∧ rel' x.1 y.1 ∧
      Grows m tags rel rel'

section Memories

variable {m m' : TagAddresses}
variable {rel : jlong → jlong → Prop}
variable {tags tags' : TagMemory}
variable {a b r r' : jlong}

theorem Alike.eq_iff
    {c d : jlong}
    (hAlike : Alike m m' rel tags tags')
    (hRel : rel a b)
    (hOther : rel c d) :
    a = c ↔ b = d :=
  hAlike.matching.unique hRel hOther

theorem Alike.zero_iff
    (hAlike : Alike m m' rel tags tags')
    (hRel : rel a b) :
    a = 0 ↔ b = 0 :=
  hAlike.eq_iff hRel hAlike.zero

theorem Alike.isStatic_iff
    (hAlike : Alike m m' rel tags tags')
    (hRel : rel a b) :
    m.isStatic a ↔ m'.isStatic b := by
  unfold TagAddresses.isStatic
  rw [hAlike.eq_iff hRel hAlike.empty,
    hAlike.eq_iff hRel hAlike.reset,
    hAlike.eq_iff hRel hAlike.held]

theorem Alike.renamed
    {x y : jlong × TagMemory}
    (hAlike : Alike m m' rel x.2 y.2)
    (hRel : rel x.1 y.1) :
    Renamed m m' rel tags x y :=
  ⟨rel, hAlike, hRel, fun _ h => h⟩

/- A change of the tags alone. -/
theorem Alike.of_store
    {next next' : TagMemory}
    (hAlike : Alike m m' rel tags tags')
    (hMatches : Matches rel next.store next'.store)
    (hSame : next.tagsWithNewInfo = tags.tagsWithNewInfo)
    (hSame' :
      next'.tagsWithNewInfo = tags'.tagsWithNewInfo) :
    Alike m m' rel next next' where
  matching := hMatches
  zero := hAlike.zero
  empty := hAlike.empty
  reset := hAlike.reset
  held := hAlike.held
  newInfo := by
    intro a b hRel
    rw [hSame, hSame']
    exact hAlike.newInfo hRel

------------------------------------------------------------
-- Reads
------------------------------------------------------------

theorem Alike.dereference_eq
    (hAlike : Alike m m' rel tags tags')
    (hRel : rel a b) :
    tags.dereference m a = tags'.dereference m' b := by
  unfold dereference
  rw [hAlike.matching.get hRel]
  simp only [hAlike.isStatic_iff hRel,
    hAlike.zero_iff hRel]

theorem Alike.tagToClassTagPointer_eq
    (hAlike : Alike m m' rel tags tags')
    (hRel : rel a b) :
    tags.tagToClassTagPointer m a =
      tags'.tagToClassTagPointer m' b := by
  unfold tagToClassTagPointer
  rw [hAlike.dereference_eq hRel]
  simp only [hAlike.zero_iff hRel]

theorem Alike.shouldMerge_eq
    (hAlike : Alike m m' rel tags tags')
    (hRel : rel a b)
    (hOther : rel r r') :
    tags.shouldMerge m a r = tags'.shouldMerge m' b r' := by
  unfold shouldMerge
  rw [hAlike.dereference_eq hRel,
    hAlike.dereference_eq hOther]

theorem Alike.tagsAreValidForMerge_eq
    (hAlike : Alike m m' rel tags tags')
    (hRel : rel a b)
    (hOther : rel r r') :
    tags.tagsAreValidForMerge m a r =
      tags'.tagsAreValidForMerge m' b r' := by
  unfold tagsAreValidForMerge
  rw [hAlike.tagToClassTagPointer_eq hRel,
    hAlike.shouldMerge_eq hRel hOther]
  simp only [hAlike.eq_iff hRel hOther]

theorem Alike.visitedInfos_eq
    (hAlike : Alike m m' rel tags tags')
    (hRel : rel a b) :
    visitedInfos m a tags = visitedInfos m' b tags' := by
  unfold visitedInfos
  rw [hAlike.dereference_eq hRel]
  simp only [hAlike.zero_iff hRel]

------------------------------------------------------------
-- Writes
------------------------------------------------------------

theorem Alike.modify
    (hAlike : Alike m m' rel tags tags')
    (hRel : rel a b)
    (f : Tag → Tag) :
    Option.Rel (Alike m m' rel) (tags.modify m a f)
      (tags'.modify m' b f) := by
  unfold TagMemory.modify
  by_cases hStatic : m.isStatic a
  · rw [if_pos hStatic,
      if_pos ((hAlike.isStatic_iff hRel).mp hStatic)]
    exact .none
  · rw [if_neg hStatic,
      if_neg (mt (hAlike.isStatic_iff hRel).mpr hStatic),
      ← hAlike.matching.get hRel]
    cases hGet : tags.store.get a with
    | none => exact .none
    | some t =>
        have hLive : tags.store.get a ≠ none := by
          rw [hGet]
          exact Option.some_ne_none t
        exact .some (hAlike.of_store
          (hAlike.matching.set hRel hLive (f t)) rfl rfl)

theorem Alike.deleteTag
    (hAlike : Alike m m' rel tags tags')
    (hRel : rel a b) :
    Alike m m' rel (tags.deleteTag a)
      (tags'.deleteTag b) :=
  hAlike.of_store (hAlike.matching.delete hRel) rfl rfl

theorem Alike.unref
    (hAlike : Alike m m' rel tags tags')
    (hRel : rel a b) :
    Option.Rel (Alike m m' rel) (tags.unref m a)
      (tags'.unref m' b) := by
  unfold TagMemory.unref
  by_cases hStatic : m.isStatic a
  · rw [if_pos hStatic,
      if_pos ((hAlike.isStatic_iff hRel).mp hStatic)]
    exact .some hAlike
  · rw [if_neg hStatic,
      if_neg (mt (hAlike.isStatic_iff hRel).mpr hStatic)]
    apply rel_bind_eq (hAlike.matching.get hRel)
    intro t _
    unfold release
    split
    · exact .some (hAlike.deleteTag hRel)
    · exact hAlike.modify hRel _

theorem Alike.visitFromUntaggedReferrer
    (hAlike : Alike m m' rel tags tags')
    (hRel : rel a b) :
    Option.Rel (Alike m m' rel)
      (tags.visitFromUntaggedReferrer m a)
      (tags'.visitFromUntaggedReferrer m' b) := by
  unfold TagMemory.visitFromUntaggedReferrer
  apply rel_bind_eq (hAlike.dereference_eq hRel)
  intro t _
  split
  · exact .some hAlike
  · exact hAlike.modify hRel _

theorem Alike.insertNewInfo
    (hAlike : Alike m m' rel tags tags')
    (hRel : rel a b) :
    Alike m m' rel (tags.insertNewInfo a)
      (tags'.insertNewInfo b) where
  matching := hAlike.matching
  zero := hAlike.zero
  empty := hAlike.empty
  reset := hAlike.reset
  held := hAlike.held
  newInfo := by
    intro c d hOther
    unfold TagMemory.insertNewInfo
    rw [Finset.mem_insert, Finset.mem_insert,
      hAlike.eq_iff hOther hRel, hAlike.newInfo hOther]

theorem Alike.eraseNewInfo
    (hAlike : Alike m m' rel tags tags')
    (hRel : rel a b) :
    Alike m m' rel (tags.eraseNewInfo a)
      (tags'.eraseNewInfo b) where
  matching := hAlike.matching
  zero := hAlike.zero
  empty := hAlike.empty
  reset := hAlike.reset
  held := hAlike.held
  newInfo := by
    intro c d hOther
    unfold TagMemory.eraseNewInfo
    rw [Finset.mem_erase, Finset.mem_erase, ne_eq, ne_eq,
      hAlike.eq_iff hOther hRel, hAlike.newInfo hOther]

theorem Listed.eraseNewInfo
    (hListed : Listed m tags)
    (a : jlong) :
    Listed m (tags.eraseNewInfo a) :=
  fun c hMem => hListed c (Finset.mem_of_mem_erase hMem)

theorem Listed.not_new
    {t : Tag}
    (hListed : Listed m tags) :
    (tags.new m t).1 ∉ tags.tagsWithNewInfo :=
  fun hMem => new_not_inUse (hListed _ hMem)

/- A new tag is at an address that nothing matched. -/
theorem Alike.new
    (hAlike : Alike m m' rel tags tags')
    (hListed : Listed m tags)
    (hListed' : Listed m' tags')
    (t : Tag) :
    Alike m m'
        (addMatch rel (tags.new m t).1 (tags'.new m' t).1)
        (tags.new m t).2 (tags'.new m' t).2 ∧
      Grows m tags rel
        (addMatch rel (tags.new m t).1
          (tags'.new m' t).1) := by
  have hGrows :
      Grows m tags rel
        (addMatch rel (tags.new m t).1
          (tags'.new m' t).1) := by
    intro a b hInUse hRel
    have hInUse' : tags'.InUse m' b := by
      refine hInUse.imp ?_ ?_
      · rw [mem_reserved_iff, mem_reserved_iff,
          hAlike.zero_iff hRel, hAlike.isStatic_iff hRel]
        exact id
      · rw [hAlike.matching.get hRel]
        exact id
    exact addMatch_of_ne hRel hInUse.ne_new hInUse'.ne_new
  have hReserved :
      ∀ {a b}, a ∈ m.reserved → rel a b →
        addMatch rel (tags.new m t).1 (tags'.new m' t).1 a
          b :=
    fun hMem hRel => hGrows (Or.inl hMem) hRel
  refine ⟨⟨hAlike.matching.create m.alloc m'.alloc t,
    hReserved (zero_mem_reserved m) hAlike.zero,
    hReserved (emptyTag_mem_reserved m) hAlike.empty,
    hReserved (tagWithNewInfo_mem_reserved m) hAlike.reset,
    hReserved ?_ hAlike.held, ?_⟩, hGrows⟩
  · exact mem_reserved_iff.mpr
      (Or.inr (Or.inr (Or.inr rfl)))
  · rintro a b (⟨hA, hB⟩ | ⟨hRel, _, _⟩)
    · rw [hA, hB]
      exact iff_of_false hListed.not_new hListed'.not_new
    · exact hAlike.newInfo hRel

theorem Alike.new_renamed
    (hAlike : Alike m m' rel tags tags')
    (hListed : Listed m tags)
    (hListed' : Listed m' tags')
    (t : Tag) :
    Renamed m m' rel tags (tags.new m t)
      (tags'.new m' t) :=
  ⟨_, (hAlike.new hListed hListed' t).1, addMatch_self,
    (hAlike.new hListed hListed' t).2⟩

theorem Alike.share
    (hAlike : Alike m m' rel tags tags')
    (hListed : Listed m tags)
    (hListed' : Listed m' tags')
    (hRel : rel a b) :
    Option.Rel (Renamed m m' rel tags) (tags.share m a)
      (tags'.share m' b) := by
  unfold TagMemory.share
  apply rel_bind_eq (hAlike.dereference_eq hRel)
  intro t _
  split
  · exact .some (hAlike.new_renamed hListed hListed' _)
  · apply rel_bind (hAlike.modify hRel _)
    intro next next' hNext
    exact .some (hNext.renamed hRel)

theorem Alike.merge
    (hAlike : Alike m m' rel tags tags')
    (hListed : Listed m tags)
    (hListed' : Listed m' tags')
    (hRel : rel a b)
    (hReferrer : rel r r') :
    Option.Rel (Renamed m m' rel tags) (tags.merge m a r)
      (tags'.merge m' b r') := by
  unfold TagMemory.merge
  apply rel_bind_eq (hAlike.dereference_eq hRel)
  intro t hT
  apply rel_bind_eq (hAlike.dereference_eq hReferrer)
  intro q _
  rcases hAlike.new hListed hListed' (.ofMerge t q) with
    ⟨hNew, hGrows⟩
  have hStill := hGrows (InUse.of_dereference hT) hRel
  apply rel_bind (hNew.unref hStill)
  intro next next' hNext
  exact .some ⟨_, hNext, addMatch_self, hGrows⟩

end Memories

------------------------------------------------------------
-- Reference Callbacks
------------------------------------------------------------

section Callbacks

variable {m m' : TagAddresses}
variable {rel : jlong → jlong → Prop}
variable {tags tags' : TagMemory}
variable {args args' : ReferenceArguments jlong}
variable {a b : jlong}

/- The same reference, with matching tags that are in use. -/
structure AlikeArguments
    (m : TagAddresses)
    (rel : jlong → jlong → Prop)
    (tags : TagMemory)
    (args args' : ReferenceArguments jlong) : Prop where
  refKind : args.refKind = args'.refKind
  tag : rel args.tag args'.tag
  referrerTag :
    Option.Rel (fun r r' => rel r r' ∧ tags.InUse m r)
      args.referrerTag args'.referrerTag

/- Both are handled, or both are left as they were. -/
def AlikeHandled
    (m m' : TagAddresses)
    (rel : jlong → jlong → Prop)
    (tags tags' : TagMemory)
    (a b : jlong)
    (x y : Bool × jlong × TagMemory) : Prop :=
  (x.1 = true ∧ y.1 = true ∧ rel x.2.1 y.2.1 ∧
      Alike m m' rel x.2.2 y.2.2) ∨
    (x = (false, a, tags) ∧ y = (false, b, tags'))

theorem Alike.untagged
    (hAlike : Alike m m' rel tags tags')
    (hRel : rel a b)
    (setTagsWithNewInfo : Bool) :
    Option.Rel (AlikeHandled m m' rel tags tags' a b)
      (handleReferrersWithNoInfo.untagged m a
        setTagsWithNewInfo tags)
      (handleReferrersWithNoInfo.untagged m' b
        setTagsWithNewInfo tags') := by
  unfold handleReferrersWithNoInfo.untagged
  simp only [← hAlike.zero_iff hRel,
    ← hAlike.eq_iff hRel hAlike.empty]
  split
  · exact .some (Or.inl ⟨rfl, rfl, hAlike.empty, hAlike⟩)
  · split
    · exact .some (Or.inl ⟨rfl, rfl, hRel, hAlike⟩)
    · apply rel_bind_eq (hAlike.dereference_eq hRel)
      intro t _
      split
      · apply rel_bind (hAlike.unref hRel)
        intro next next' hNext
        exact .some (Or.inl ⟨rfl, rfl, hNext.reset, hNext⟩)
      · apply rel_bind (hAlike.visitFromUntaggedReferrer hRel)
        intro next next' hNext
        exact .some (Or.inl ⟨rfl, rfl, hRel, hNext⟩)

theorem Alike.handleReferrersWithNoInfo
    (hAlike : Alike m m' rel tags tags')
    (hRel : rel a b)
    {referrerTag referrerTag' : Option jlong}
    (hReferrer :
      Option.Rel (fun r r' => rel r r' ∧ tags.InUse m r)
        referrerTag referrerTag')
    (setTagsWithNewInfo : Bool) :
    Option.Rel (AlikeHandled m m' rel tags tags' a b)
      (SizesTags.handleReferrersWithNoInfo m referrerTag a
        setTagsWithNewInfo tags)
      (SizesTags.handleReferrersWithNoInfo m' referrerTag' b
        setTagsWithNewInfo tags') := by
  unfold SizesTags.handleReferrersWithNoInfo
  cases hReferrer with
  | none => exact hAlike.untagged hRel setTagsWithNewInfo
  | @some r r' hBoth =>
      have hR := hBoth.1
      simp only [← hAlike.eq_iff hR hAlike.empty,
        ← hAlike.eq_iff hR hAlike.reset,
        ← hAlike.zero_iff hR]
      split
      · exact hAlike.untagged hRel setTagsWithNewInfo
      · split
        · exact .some (Or.inl ⟨rfl, rfl, hRel, hAlike⟩)
        · apply rel_bind_eq (hAlike.tagToClassTagPointer_eq hR)
          intro classTag _
          cases classTag with
          | none => exact .some (Or.inr ⟨rfl, rfl⟩)
          | some ids =>
              exact .some (Or.inl ⟨rfl, rfl, hRel, hAlike⟩)

/- The referrer notes that it was already referred. -/
theorem Renamed.setAlreadyReferred
    {r r' : jlong}
    {x y : jlong × TagMemory}
    (hRenamed : Renamed m m' rel tags x y)
    (hRel : rel r r')
    (hInUse : tags.InUse m r) :
    Option.Rel (Renamed m m' rel tags)
      ((x.2.setAlreadyReferred m r).bind
        (fun next => some (x.1, next)))
      ((y.2.setAlreadyReferred m' r').bind
        (fun next => some (y.1, next))) := by
  rcases hRenamed with ⟨rel', hAlike, hTag, hGrows⟩
  apply rel_bind (hAlike.modify (hGrows hInUse hRel) _)
  intro next next' hNext
  exact .some ⟨rel', hNext, hTag, hGrows⟩

theorem Alike.getTagsWithNewInfo
    (hAlike : Alike m m' rel tags tags')
    (hListed : Listed m tags)
    (hListed' : Listed m' tags')
    (hArgs : AlikeArguments m rel tags args args') :
    Option.Rel (Renamed m m' rel tags)
      (SizesTags.getTagsWithNewInfo m args tags)
      (SizesTags.getTagsWithNewInfo m' args' tags') := by
  have hTag := hArgs.tag
  unfold SizesTags.getTagsWithNewInfo
  simp only [← hArgs.refKind,
    ← hAlike.eq_iff hTag hAlike.reset]
  split
  · exact .some (hAlike.renamed hTag)
  · apply rel_bind (hAlike.handleReferrersWithNoInfo hTag
      hArgs.referrerTag true)
    rintro ⟨handled, c, next⟩ ⟨handled', c', next'⟩
      (⟨hX, hY, hC, hNext⟩ | ⟨hX, hY⟩)
    · dsimp only at hX hY
      subst hX hY
      exact .some (hNext.renamed hC)
    · cases hX
      cases hY
      apply rel_bind hArgs.referrerTag
      rintro r r' ⟨hR, hInUse⟩
      have hLast {x y : jlong × TagMemory} :=
        fun (hRenamed : Renamed m m' rel tags x y) =>
          hRenamed.setAlreadyReferred hR hInUse
      simp only [← hAlike.zero_iff hTag]
      split
      · exact rel_bind (hAlike.share hListed hListed' hR)
          (fun _ _ hRenamed => hLast hRenamed)
      · apply rel_bind_eq
          (hAlike.tagsAreValidForMerge_eq hTag hR)
        intro valid _
        split
        · apply rel_bind_eq (hAlike.dereference_eq hTag)
          intro t _
          split
          · apply rel_bind (hAlike.unref hTag)
            intro next next' hNext
            exact hLast (hNext.renamed hNext.reset)
          · exact rel_bind
              (hAlike.merge hListed hListed' hTag hR)
              (fun _ _ hRenamed => hLast hRenamed)
        · exact hLast (hAlike.renamed hTag)

/- The tag that the object gets has new infos. -/
theorem Renamed.insertNewInfo
    {x y : jlong × TagMemory}
    (hRenamed : Renamed m m' rel tags x y) :
    Renamed m m' rel tags (x.1, x.2.insertNewInfo x.1)
      (y.1, y.2.insertNewInfo y.1) := by
  rcases hRenamed with ⟨rel', hAlike, hTag, hGrows⟩
  exact ⟨rel', hAlike.insertNewInfo hTag, hTag, hGrows⟩

theorem Alike.visitReference
    (hAlike : Alike m m' rel tags tags')
    (hListed : Listed m tags)
    (hListed' : Listed m' tags')
    (hArgs : AlikeArguments m rel tags args args') :
    Option.Rel (Renamed m m' rel tags)
      (SizesTags.visitReference m args tags)
      (SizesTags.visitReference m' args' tags') := by
  have hTag := hArgs.tag
  unfold SizesTags.visitReference
  simp only [← hArgs.refKind]
  split
  · exact .some (hAlike.renamed hTag)
  · apply rel_bind (hAlike.handleReferrersWithNoInfo hTag
      hArgs.referrerTag false)
    rintro ⟨handled, c, next⟩ ⟨handled', c', next'⟩
      (⟨hX, hY, hC, hNext⟩ | ⟨hX, hY⟩)
    · dsimp only at hX hY
      subst hX hY
      exact .some (hNext.renamed hC)
    · cases hX
      cases hY
      apply rel_bind hArgs.referrerTag
      rintro r r' ⟨hR, _⟩
      simp only [← hAlike.zero_iff hTag,
        ← hAlike.eq_iff hTag hAlike.reset]
      split
      · exact hAlike.share hListed hListed' hR
      · split
        · apply rel_bind
            (hAlike.share hListed hListed' hR)
          intro x y hRenamed
          exact .some hRenamed.insertNewInfo
        · apply rel_bind_eq
            (hAlike.tagsAreValidForMerge_eq hTag hR)
          intro valid _
          split
          · apply rel_bind
              ((hAlike.eraseNewInfo hTag).merge
                (hListed.eraseNewInfo _)
                (hListed'.eraseNewInfo _) hTag hR)
            intro x y hRenamed
            exact .some hRenamed.insertNewInfo
          · exact .some (hAlike.renamed hTag)

theorem Alike.spreadInfo
    (hAlike : Alike m m' rel tags tags')
    (hListed : Listed m tags)
    (hListed' : Listed m' tags')
    (hArgs : AlikeArguments m rel tags args args') :
    Option.Rel (Renamed m m' rel tags)
      (SizesTags.spreadInfo m args tags)
      (SizesTags.spreadInfo m' args' tags') := by
  have hTag := hArgs.tag
  unfold SizesTags.spreadInfo
  simp only [← hArgs.refKind, ← hAlike.zero_iff hTag]
  split
  · exact .some (hAlike.renamed hTag)
  · apply rel_bind hArgs.referrerTag
    rintro r r' ⟨hR, _⟩
    have hErased := hAlike.eraseNewInfo hTag
    simp only [← hAlike.zero_iff hR,
      ← hAlike.eq_iff hR hTag,
      ← hErased.shouldMerge_eq hTag hR]
    split
    · exact .some (hAlike.renamed hTag)
    · split
      · exact .some (hErased.renamed hTag)
      · apply rel_bind_eq rfl
        intro merged _
        split
        · exact hErased.merge (hListed.eraseNewInfo _)
            (hListed'.eraseNewInfo _) hTag hR
        · exact .some (hErased.renamed hTag)

------------------------------------------------------------
-- Iteration Callbacks
------------------------------------------------------------

variable {c c' : jlong}

theorem Alike.createTagForObject
    (hAlike : Alike m m' rel tags tags')
    (hListed : Listed m tags)
    (hListed' : Listed m' tags')
    (hRel : rel a b)
    (hInUse : tags.InUse m a)
    (index : Nat) :
    Option.Rel (Renamed m m' rel tags)
      (SizesTags.createTagForObject m index a tags)
      (SizesTags.createTagForObject m' index b tags') := by
  unfold SizesTags.createTagForObject
  rcases hAlike.new hListed hListed'
      (.ofInfo index (createState true true false false))
    with ⟨hNew, hGrows⟩
  have hStill := hGrows hInUse hRel
  dsimp only
  simp only [ne_eq, ← hAlike.zero_iff hRel,
    ← hAlike.eq_iff hRel hAlike.reset]
  split
  · apply rel_bind_eq (hNew.dereference_eq addMatch_self)
    intro t _
    apply rel_bind (hNew.modify hStill _)
    intro next next' hNext
    exact .some ⟨_, hNext.deleteTag addMatch_self, hStill,
      hGrows⟩
  · exact .some (hAlike.new_renamed hListed hListed' _)

theorem Alike.tagClass
    (hAlike : Alike m m' rel tags tags')
    (hListed : Listed m tags)
    (hListed' : Listed m' tags')
    (hRel : rel a b)
    (index : Nat) :
    Option.Rel (Renamed m m' rel tags)
      (SizesTags.tagClass m index a tags)
      (SizesTags.tagClass m' index b tags') := by
  unfold SizesTags.tagClass
  apply rel_bind_eq (hAlike.tagToClassTagPointer_eq hRel)
  intro classTag _
  cases classTag with
  | none =>
      exact .some (hAlike.new_renamed hListed hListed' _)
  | some ids =>
      apply rel_bind (hAlike.modify hRel _)
      intro next next' hNext
      exact .some (hNext.renamed hRel)

theorem Alike.tagObjectOfTaggedClass
    (hAlike : Alike m m' rel tags tags')
    (hListed : Listed m tags)
    (hListed' : Listed m' tags')
    (hClass : rel c c')
    (hRel : rel a b) :
    Option.Rel (Renamed m m' rel tags)
      (SizesTags.tagObjectOfTaggedClass m c a tags)
      (SizesTags.tagObjectOfTaggedClass m' c' b tags') := by
  unfold SizesTags.tagObjectOfTaggedClass
  apply rel_bind_eq (hAlike.tagToClassTagPointer_eq hClass)
  intro classTag _
  cases classTag with
  | none => exact .some (hAlike.renamed hRel)
  | some ids =>
      simp only [← hAlike.zero_iff hRel]
      split
      · exact .some (hAlike.new_renamed hListed hListed' _)
      · exact .some (hAlike.renamed hRel)

theorem Alike.retagStartObjects
    (hAlike : Alike m m' rel tags tags')
    (hListed : Listed m tags)
    (hListed' : Listed m' tags')
    (hClass : rel c c')
    (hRel : rel a b) :
    Option.Rel (Renamed m m' rel tags)
      (SizesTags.retagStartObjects m c a tags)
      (SizesTags.retagStartObjects m' c' b tags') := by
  unfold SizesTags.retagStartObjects
  apply rel_bind_eq (hAlike.tagToClassTagPointer_eq hClass)
  intro classTag _
  cases classTag with
  | none => exact .some (hAlike.renamed hRel)
  | some ids =>
      simp only [← hAlike.eq_iff hRel hAlike.reset]
      split
      · exact .some (hAlike.new_renamed hListed hListed'
          _).insertNewInfo
      · exact .some (hAlike.renamed hRel)

theorem Alike.clearTag
    (hAlike : Alike m m' rel tags tags')
    (hRel : rel a b) :
    Option.Rel (Renamed m m' rel tags)
      (SizesTags.clearTag m a tags)
      (SizesTags.clearTag m' b tags') := by
  unfold SizesTags.clearTag
  simp only [← hAlike.zero_iff hRel]
  split
  · exact .some (hAlike.renamed hRel)
  · apply rel_bind (hAlike.unref hRel)
    intro next next' hNext
    exact .some (hNext.renamed hNext.zero)

theorem Alike.reads
    {α : Type}
    {x y : Option α}
    (hAlike : Alike m m' rel tags tags')
    (hRel : rel a b)
    (hEq : x = y) :
    Option.Rel (Renamed m m' rel tags)
      (x.map (fun _ => (a, tags)))
      (y.map (fun _ => (b, tags'))) := by
  rw [← hEq]
  cases x with
  | none => exact .none
  | some _ => exact .some (hAlike.renamed hRel)

theorem Alike.iterate
    (hAlike : Alike m m' rel tags tags')
    (hListed : Listed m tags)
    (hListed' : Listed m' tags')
    (hClass : rel c c')
    (hRel : rel a b)
    (callback : Iteration) :
    Option.Rel (Renamed m m' rel tags)
      (callback.run m c a tags)
      (callback.run m' c' b tags') := by
  cases callback with
  | tagObjectOfTaggedClass =>
      exact hAlike.tagObjectOfTaggedClass hListed hListed'
        hClass hRel
  | retagStartObjects =>
      exact hAlike.retagStartObjects hListed hListed' hClass
        hRel
  | visitObject =>
      exact hAlike.reads hRel (hAlike.visitedInfos_eq hRel)
  | visitObjectForShallowAndRetainedSize =>
      exact hAlike.reads hRel (hAlike.visitedInfos_eq hRel)
  | calculateShallowSize =>
      exact hAlike.reads hRel
        (hAlike.tagToClassTagPointer_eq hClass)

end Callbacks

end SizesTags

end MemoryAgent
