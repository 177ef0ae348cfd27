import MemoryAgent.Sizes.Tags.ClassRuns

/-
  Where the indices of a tag come from.  Each callback gives
  the referenced object indices of its own tag and of the
  referrer's tag only, and keeps the indices of the other
  objects.

  Key definitions include:
    * `SizesTags.TagMemory.indicesAt`
    * `SizesTags.Sourced`

  Main results:
    * `SizesTags.getTagsWithNewInfo_sourced`
    * `SizesTags.visitReference_sourced`
    * `SizesTags.spreadInfo_sourced`
-/

------------------------------------------------------------
-- Indices
------------------------------------------------------------

namespace MemoryAgent

namespace SizesTags

open RecordStore TagMemory TagInfoArray

def Tag.indexView (t : Tag) : List Nat :=
  indices t.array.infos

/- The indices of the tag at an address. -/
def TagMemory.indicesAt
    (m : TagAddresses)
    (tags : TagMemory)
    (a : jlong) : List Nat :=
  (tags.viewAt Tag.indexView m a).getD []

section Operations

variable {m : TagAddresses}
variable {tags tags' : TagMemory}
variable {a b r : jlong}

theorem indexView_uncounted :
    Uncounted Tag.indexView :=
  fun _ _ => rfl

theorem indicesAt_congr
    (hSame :
      tags'.viewAt Tag.indexView m a =
        tags.viewAt Tag.indexView m b) :
    tags'.indicesAt m a = tags.indicesAt m b := by
  rw [indicesAt, hSame, indicesAt]

theorem indicesAt_of_static
    (hStatic : m.isStatic a) :
    tags.indicesAt m a = [] := by
  rw [indicesAt, viewAt_of_static hStatic]
  rfl

theorem indicesAt_of_dereference
    {t : Tag}
    (hT : tags.dereference m a = some t) :
    tags.indicesAt m a = indices t.array.infos := by
  rw [indicesAt, viewAt, hT]
  rfl

theorem indices_map
    (f : BitVec 8 → BitVec 8)
    (array : TagInfoArray) :
    indices (array.map f).infos = indices array.infos := by
  unfold indices TagInfoArray.map
  rw [List.map_map]
  rfl

theorem mem_indices_filled
    {infos : List TagInfo}
    {k : Nat}
    (hMem : k ∈ indices (filled infos).infos) :
    k ∈ indices infos := by
  rcases List.mem_map.mp hMem with ⟨x, hX, hIndex⟩
  exact List.mem_map.mpr ⟨x, List.mem_of_mem_drop hX, hIndex⟩

theorem mem_indices_merge
    {t u : TagInfoArray}
    {k : Nat}
    (hMem : k ∈ indices (t.merge u).infos) :
    k ∈ indices t.infos ∨ k ∈ indices u.infos :=
  (mem_indices_mergeInfos _ _ _ k).mp (mem_indices_filled hMem)

theorem setAlreadyReferred_indicesAt
    (hSet : tags.setAlreadyReferred m r = some tags')
    (c : jlong) :
    tags'.indicesAt m c = tags.indicesAt m c :=
  indicesAt_congr (modify_viewAt hSet (fun _ _ => rfl) c)

theorem unref_indicesAt
    (hUnref : tags.unref m r = some tags')
    (hInUse : tags'.InUse m a) :
    tags'.indicesAt m a = tags.indicesAt m a :=
  indicesAt_congr
    (unref_viewAt indexView_uncounted hUnref hInUse)

theorem visitFromUntaggedReferrer_indicesAt
    (hVisit :
      tags.visitFromUntaggedReferrer m a = some tags')
    (c : jlong) :
    tags'.indicesAt m c = tags.indicesAt m c := by
  rcases visitFromUntaggedReferrer_cases hVisit with
    ⟨t, _, ⟨_, hSame⟩ | ⟨_, hModify⟩⟩
  · rw [hSame]
  · refine indicesAt_congr (modify_viewAt hModify ?_ c)
    intro u _
    exact indices_map asVisitedFromUntagged u.array

theorem share_indicesAt
    (hShare : tags.share m a = some (b, tags')) :
    tags'.indicesAt m b = tags.indicesAt m a ∧
      ∀ c, tags.InUse m c →
        tags'.indicesAt m c = tags.indicesAt m c := by
  rcases share_cases hShare with
    ⟨t, hT, ⟨_, hNew⟩ | ⟨_, hB, hRef⟩⟩
  · rw [Prod.ext_iff] at hNew
    rcases hNew with ⟨hB, hTags⟩
    dsimp only at hB hTags
    rw [← hB, ← hTags]
    refine ⟨?_, fun c hInUse =>
      indicesAt_congr (new_viewAt hInUse)⟩
    rw [indicesAt, new_viewAt_self,
      indicesAt_of_dereference hT]
    exact indices_map
      (updateState (createState false false false true)) t.array
  · have hSame (c : jlong) :
        tags'.indicesAt m c = tags.indicesAt m c :=
      indicesAt_congr (modify_viewAt hRef (fun _ _ => rfl) c)
    rw [hB]
    exact ⟨hSame a, fun c _ => hSame c⟩

theorem merge_indicesAt
    (hMerge : tags.merge m a r = some (b, tags')) :
    (tags'.InUse m b →
      ∀ k ∈ tags'.indicesAt m b,
        k ∈ tags.indicesAt m a ∨ k ∈ tags.indicesAt m r) ∧
      ∀ c, tags.InUse m c → tags'.InUse m c →
        tags'.indicesAt m c = tags.indicesAt m c := by
  rcases merge_cases hMerge with ⟨t, u, hT, hU, hB, hUnref⟩
  constructor
  · intro hInUse k hMem
    rw [unref_indicesAt hUnref hInUse, hB, indicesAt,
      new_viewAt_self] at hMem
    rw [indicesAt_of_dereference hT,
      indicesAt_of_dereference hU]
    exact mem_indices_merge hMem
  · intro c hInUse hInUse'
    rw [unref_indicesAt hUnref hInUse']
    exact indicesAt_congr (new_viewAt hInUse)

end Operations

------------------------------------------------------------
-- Callbacks
------------------------------------------------------------

section Callbacks

variable {O : Type}
variable {m : TagAddresses}
variable {tag : O → jlong}
variable {tags tags' : TagMemory}
variable {args : ReferenceArguments jlong}
variable {o : O}
variable {b : jlong}

/-
  The object `o` takes the tag `b`, whose indices were its
  own or are such that `more` holds.  The other objects keep
  their indices.
-/
structure Sourced
    (m : TagAddresses)
    (tag : O → jlong)
    (tags : TagMemory)
    (o : O)
    (more : Nat → Prop)
    (b : jlong)
    (tags' : TagMemory) : Prop where
  others :
    ∀ p, p ≠ o →
      tags'.indicesAt m (tag p) = tags.indicesAt m (tag p)
  self :
    ∀ k ∈ tags'.indicesAt m b,
      k ∈ tags.indicesAt m (tag o) ∨ more k

/- The tag of the referrer has the index. -/
def Brought
    (m : TagAddresses)
    (tags : TagMemory)
    (referrer : Option jlong)
    (k : Nat) : Prop :=
  ∃ r, referrer = some r ∧ k ∈ tags.indicesAt m r

variable {more : Nat → Prop}

theorem Sourced.keep
    (hSame :
      ∀ c, tags'.indicesAt m c = tags.indicesAt m c) :
    Sourced m tag tags o more (tag o) tags' := by
  refine ⟨fun p _ => hSame (tag p), fun k hMem => ?_⟩
  rw [hSame] at hMem
  exact Or.inl hMem

theorem Sourced.static
    (hStatic : m.isStatic b)
    (hOthers :
      ∀ p, p ≠ o →
        tags'.indicesAt m (tag p) =
          tags.indicesAt m (tag p)) :
    Sourced m tag tags o more b tags' := by
  refine ⟨hOthers, fun k hMem => ?_⟩
  rw [indicesAt_of_static hStatic] at hMem
  exact absurd hMem List.not_mem_nil

variable [Fintype O]

theorem Owned.sourced_share
    {r : jlong}
    {tags₁ : TagMemory}
    (hOwned : Owned m tag tags)
    (hReferrer : args.referrerTag = some r)
    (hShare : tags.share m r = some (b, tags₁))
    (hSame :
      ∀ c, tags'.indicesAt m c = tags₁.indicesAt m c) :
    Sourced m tag tags o (Brought m tags args.referrerTag) b
      tags' := by
  rcases share_indicesAt hShare with ⟨hB, hOthers⟩
  refine ⟨fun p _ => ?_, fun k hMem => ?_⟩
  · rw [hSame]
    exact hOthers (tag p) (hOwned.inUse p)
  · rw [hSame, hB] at hMem
    exact Or.inr ⟨r, hReferrer, hMem⟩

variable [DecidableEq O]

theorem Handled.sourced
    {referrer : Option jlong}
    {resets : Bool}
    (hHandled :
      Handled m referrer resets (tag o) tags b tags')
    (hNext : Owned m (Function.update tag o b) tags') :
    Sourced m tag tags o more b tags' := by
  cases hHandled with
  | keep _ => exact .keep (fun _ => rfl)
  | empty _ => exact .static (Or.inl rfl) (fun _ _ => rfl)
  | reset _ hUnref =>
      refine .static (Or.inr (Or.inl rfl)) (fun p hNe => ?_)
      exact unref_indicesAt hUnref (hNext.inUse_of_ne hNe)
  | visit _ _ _ _ _ hVisit =>
      exact .keep (visitFromUntaggedReferrer_indicesAt hVisit)

theorem Owned.sourced_merge
    {r : jlong}
    {tags₀ tags₁ : TagMemory}
    (hOwned : Owned m tag tags)
    (hReferrer : args.referrerTag = some r)
    (hMerge : tags₀.merge m (tag o) r = some (b, tags₁))
    (hStore : tags₀.store = tags.store)
    (hSame :
      ∀ c, tags'.indicesAt m c = tags₁.indicesAt m c)
    (hInUse : ∀ c, tags'.InUse m c → tags₁.InUse m c)
    (hNext : Owned m (Function.update tag o b) tags') :
    Sourced m tag tags o (Brought m tags args.referrerTag) b
      tags' := by
  have hBefore (c : jlong) :
      tags₀.indicesAt m c = tags.indicesAt m c :=
    indicesAt_congr (viewAt_congr (by rw [hStore]))
  have hUse (c : jlong) (hC : tags.InUse m c) :
      tags₀.InUse m c := by
    unfold InUse
    rw [hStore]
    exact hC
  rcases merge_indicesAt hMerge with ⟨hB, hOthers⟩
  have hUseB := hNext.inUse o
  rw [Function.update_self] at hUseB
  refine ⟨fun p hNe => ?_, fun k hMem => ?_⟩
  · rw [hSame, ← hBefore]
    exact hOthers (tag p) (hUse _ (hOwned.inUse p))
      (hInUse _ (hNext.inUse_of_ne hNe))
  · rw [hSame] at hMem
    have hEither := hB (hInUse _ hUseB) k hMem
    rw [hBefore, hBefore] at hEither
    exact hEither.imp_right (fun hNew => ⟨r, hReferrer, hNew⟩)

theorem getTagsWithNewInfo_sourced
    (hOwned : Owned m tag tags)
    (hTag : args.tag = tag o)
    (hSome :
      SizesTags.getTagsWithNewInfo m args tags =
        some (b, tags'))
    (hNext : Owned m (Function.update tag o b) tags') :
    Sourced m tag tags o (Brought m tags args.referrerTag) b
      tags' := by
  cases getTagsWithNewInfo_cases hSome with
  | keep =>
      rw [hTag]
      exact .keep (fun _ => rfl)
  | handled hHandled =>
      rw [hTag] at hHandled
      exact hHandled.sourced hNext
  | share hInformed _ hShare hSet =>
      exact hOwned.sourced_share hInformed.1 hShare
        (setAlreadyReferred_indicesAt hSet)
  | reset _ hUnref hSet =>
      refine .static (Or.inr (Or.inl rfl)) (fun p hNe => ?_)
      rw [setAlreadyReferred_indicesAt hSet]
      exact unref_indicesAt hUnref
        (modify_inUse hSet (hNext.inUse_of_ne hNe))
  | merge hInformed hMerge hSet =>
      rw [hTag] at hMerge
      exact hOwned.sourced_merge hInformed.1 hMerge rfl
        (setAlreadyReferred_indicesAt hSet)
        (fun _ => modify_inUse hSet) hNext
  | refer _ hSet =>
      rw [hTag]
      exact .keep (setAlreadyReferred_indicesAt hSet)

theorem visitReference_sourced
    (hOwned : Owned m tag tags)
    (hTag : args.tag = tag o)
    (hSome :
      SizesTags.visitReference m args tags =
        some (b, tags'))
    (hNext : Owned m (Function.update tag o b) tags') :
    Sourced m tag tags o (Brought m tags args.referrerTag) b
      tags' := by
  cases visitReference_cases hSome with
  | jni _ =>
      rw [hTag]
      exact .keep (fun _ => rfl)
  | handled _ hHandled =>
      rw [hTag] at hHandled
      exact hHandled.sourced hNext
  | share hInformed _ hShare =>
      exact hOwned.sourced_share hInformed.1 hShare
        (fun _ => rfl)
  | retag hInformed _ hShare =>
      exact hOwned.sourced_share hInformed.1 hShare
        (fun _ => rfl)
  | merge hInformed hMerge =>
      rw [hTag] at hMerge
      exact hOwned.sourced_merge hInformed.1 hMerge rfl
        (fun _ => rfl) (fun _ hUse => hUse) hNext
  | keep _ =>
      rw [hTag]
      exact .keep (fun _ => rfl)

theorem spreadInfo_sourced
    (hOwned : Owned m tag tags)
    (hTag : args.tag = tag o)
    (hSome :
      SizesTags.spreadInfo m args tags = some (b, tags'))
    (hNext : Owned m (Function.update tag o b) tags') :
    Sourced m tag tags o (Brought m tags args.referrerTag) b
      tags' := by
  cases spreadInfo_cases hSome with
  | keep =>
      rw [hTag]
      exact .keep (fun _ => rfl)
  | erase =>
      rw [hTag]
      exact .keep (fun _ => rfl)
  | merge hReferrer hMerge =>
      rw [hTag] at hMerge
      exact hOwned.sourced_merge hReferrer hMerge rfl
        (fun _ => rfl) (fun _ hUse => hUse) hNext

end Callbacks

end SizesTags

end MemoryAgent
