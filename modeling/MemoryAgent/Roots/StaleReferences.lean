import MemoryAgent.Roots.HeapRoots

/-
  What the back references that stay in the static tag can
  do to a later search.  If none of them leads to a deleted
  tag when a request comes, then the search of the request
  reads no deleted tag, however far the traversal came.

  Key definitions include:
    * `Roots.NoStale`
    * `Roots.AtMost`
    * `Roots.NoneDeleted`
    * `Roots.ReadsNoDeleted`

  Main results:
    * `Roots.atMost_collectPath`
    * `Roots.NoStale.readsNoDeleted`
-/

------------------------------------------------------------
-- What a Callback Adds at Most
------------------------------------------------------------

namespace MemoryAgent

namespace Roots

open RecordStore ClosestGcRoots

section Records

variable {m : Addresses}
variable {tags tags' tags'' : GcTags}
variable {a : jlong}
variable {infos infos' : List ReferenceInfo}

theorem isPointer_iff :
    IsPointer m tags a ↔ tags.pointerToGcTag m a ≠ none := by
  constructor
  · intro hPointer
    rcases exists_pointerToGcTag hPointer with ⟨t, hT⟩
    rw [hT]
    exact Option.some_ne_none t
  · intro hSome
    by_contra hPointer
    rcases not_or.mp hPointer with ⟨hZero, hRest⟩
    rcases not_or.mp hRest with ⟨hShared, hLive⟩
    apply hSome
    unfold GcTags.pointerToGcTag
    rw [if_neg hZero, if_neg hShared]
    exact not_not.mp hLive

/-
  No tag is deleted, and no back reference is added that is
  not one of `infos`.
-/
structure AtMost
    (m : Addresses)
    (infos : List ReferenceInfo)
    (tags tags' : GcTags) : Prop where
  pointer :
    ∀ b, IsPointer m tags b → IsPointer m tags' b
  recorded :
    ∀ b, ∀ info ∈ tags'.recorded m b,
      info ∈ tags.recorded m b ∨ info ∈ infos

theorem AtMost.refl
    (m : Addresses)
    (tags : GcTags) :
    AtMost m [] tags tags :=
  ⟨fun _ hPointer => hPointer, fun _ _ hMem => Or.inl hMem⟩

theorem AtMost.trans
    (hFirst : AtMost m infos tags tags')
    (hSecond : AtMost m infos' tags' tags'') :
    AtMost m (infos ++ infos') tags tags'' := by
  constructor
  · exact fun b hPointer =>
      hSecond.pointer b (hFirst.pointer b hPointer)
  · intro b info hMem
    rcases hSecond.recorded b info hMem with hOld | hNew
    · exact (hFirst.recorded b info hOld).imp_right
        (List.mem_append_left infos')
    · exact Or.inr (List.mem_append_right infos hNew)

theorem atMost_modify
    {f : GcTag → GcTag}
    (hNe : a ≠ 0)
    (hModify : tags.modify m a f = some tags')
    (hRefs : ∀ t, (f t).backRefs = t.backRefs ++ infos) :
    AtMost m infos tags tags' := by
  have hRead := pointer_modify hNe hModify
  constructor
  · intro b hPointer
    rw [isPointer_iff] at hPointer ⊢
    rw [hRead]
    split
    · next hEq =>
        rw [hEq] at hPointer
        exact fun hNone =>
          hPointer (Option.map_eq_none_iff.mp hNone)
    · exact hPointer
  · intro b info hMem
    rw [GcTags.recorded_eq, hRead] at hMem
    rw [GcTags.recorded_eq]
    by_cases hEq : b = a
    · rw [if_pos hEq] at hMem
      rw [hEq]
      cases hGet : tags.pointerToGcTag m a with
      | none =>
          rw [hGet] at hMem
          exact absurd hMem List.not_mem_nil
      | some t =>
          rw [hGet] at hMem
          dsimp only [Option.map_some] at hMem
          rw [hRefs] at hMem
          exact List.mem_append.mp hMem
    · rw [if_neg hEq] at hMem
      exact Or.inl hMem

theorem atMost_new
    {t : GcTag}
    (hEmpty : t.backRefs = []) :
    AtMost m [] tags (tags.new m t).2 := by
  constructor
  · exact fun _ hPointer => hPointer.new t
  · intro b info hMem
    by_cases hPointer : IsPointer m tags b
    · rw [GcTags.recorded_eq, pointer_new t hPointer] at hMem
      rw [GcTags.recorded_eq]
      exact Or.inl hMem
    · -- Only the new tag is found where none was before.
      rcases not_or.mp hPointer with ⟨hZero, hRest⟩
      rcases not_or.mp hRest with ⟨hShared, hLive⟩
      have hGet :
          (tags.new m t).2.store.get b =
            if b = tags.store.nextAddress m.alloc then some t
            else tags.store.get b :=
        Store.get_create m.alloc b
      rw [GcTags.recorded_eq] at hMem
      unfold GcTags.pointerToGcTag at hMem
      rw [if_neg hZero, if_neg hShared, hGet,
        not_not.mp hLive] at hMem
      split_ifs at hMem
      · dsimp only at hMem
        rw [hEmpty] at hMem
        exact absurd hMem List.not_mem_nil
      · exact absurd hMem List.not_mem_nil

theorem atMost_recordReferrer
    {args : ReferenceArguments jlong}
    (hNe : a ≠ 0)
    (hRecord :
      recordReferrer m args a tags = some tags') :
    AtMost m [recordedInfo args a] tags tags' := by
  unfold recordReferrer at hRecord
  unfold recordedInfo
  cases hTag : args.referrerTag with
  | none =>
      rw [hTag] at hRecord
      exact atMost_modify hNe hRecord (fun _ => rfl)
  | some b =>
      rw [hTag] at hRecord
      simp only [Option.bind_eq_bind,
        Option.bind_eq_some_iff] at hRecord
      rcases hRecord with ⟨t, _, next, hState, hPush⟩
      have hSame : AtMost m [] tags next := by
        unfold GcTags.updateState at hState
        split at hState
        · exact atMost_modify hNe hState
            (fun _ => (List.append_nil _).symm)
        · cases hState
          exact AtMost.refl m tags
      exact hSame.trans
        (atMost_modify hNe hPush (fun _ => rfl))

/- The callback adds the back reference of its report. -/
theorem atMost_collectPath
    {args : ReferenceArguments jlong}
    (hSome : collectPath m args tags = some (a, tags')) :
    AtMost m [recordedInfo args a] tags tags' := by
  have hRest :
      ∀ next c, c ≠ 0 →
        (do
          let next ← recordReferrer m args c next
          let next ← next.setVisited m c
          some (c, next)) = some (a, tags') →
        AtMost m [recordedInfo args a] next tags' := by
    intro next c hNe hBoth
    simp only [Option.bind_eq_bind,
      Option.bind_eq_some_iff] at hBoth
    rcases hBoth with
      ⟨recorded, hRecord, visited, hVisit, hEq⟩
    cases hEq
    exact (atMost_recordReferrer hNe hRecord).trans
      (atMost_modify hNe hVisit
        (fun _ => (List.append_nil _).symm))
  unfold collectPath at hSome
  split at hSome
  · rcases Option.bind_eq_some_iff.mp hSome with
      ⟨⟨c, next⟩, hCreate, hBoth⟩
    have hNew :
        ∃ t : GcTag,
          t.backRefs = [] ∧ tags.new m t = (c, next) := by
      unfold GcTags.createForClass at hCreate
      split at hCreate
      · rcases Option.bind_eq_some_iff.mp hCreate with
          ⟨t, _, hEq⟩
        exact ⟨_, rfl, Option.some.inj hEq⟩
      · exact ⟨_, rfl, Option.some.inj hCreate⟩
    rcases hNew with ⟨t, hEmpty, hNew⟩
    have hNe : c ≠ 0 := by
      have hAddress := (@new_not_reserved m tags t).1
      rw [hNew] at hAddress
      exact hAddress
    have hCreated : AtMost m [] tags next := by
      have hOne := @atMost_new m tags t hEmpty
      rw [hNew] at hOne
      exact hOne
    exact hCreated.trans (hRest next c hNe hBoth)
  · next hZero => exact hRest tags args.tag hZero hSome

end Records

------------------------------------------------------------
-- Stale References
------------------------------------------------------------

/- No back reference in the static tag is to a deleted tag. -/
def NoStale
    (m : Addresses)
    (tags : GcTags) : Prop :=
  ∀ info ∈ tags.weakSoftReferenceTag.backRefs,
    info.tag = rootTag ∨ IsPointer m tags info.tag

/- No back reference in memory is to a deleted tag. -/
def NoneDeleted
    (m : Addresses)
    (tags : GcTags) : Prop :=
  ∀ a, ∀ info ∈ tags.recorded m a,
    info.tag = rootTag ∨ IsPointer m tags info.tag

section Stale

variable {m : Addresses}
variable {tags tags' : GcTags}

theorem NoneDeleted.atMost
    {infos : List ReferenceInfo}
    (hNone : NoneDeleted m tags)
    (hAtMost : AtMost m infos tags tags')
    (hNew :
      ∀ info ∈ infos,
        info.tag = rootTag ∨ IsPointer m tags' info.tag) :
    NoneDeleted m tags' := by
  intro a info hMem
  rcases hAtMost.recorded a info hMem with hOld | hAdded
  · exact (hNone a info hOld).imp_right
      (hAtMost.pointer info.tag)
  · exact hNew info hAdded

/- Between two requests only the static tag is in memory. -/
theorem NoStale.noneDeleted
    (hStale : NoStale m tags)
    (hFree : ∀ a, tags.store.get a = none) :
    NoneDeleted m tags := by
  intro a info hMem
  rw [GcTags.recorded_eq] at hMem
  unfold GcTags.pointerToGcTag at hMem
  by_cases hZero : a = 0
  · rw [if_pos hZero] at hMem
    exact absurd hMem List.not_mem_nil
  · rw [if_neg hZero] at hMem
    by_cases hShared : a = m.weakSoftReferenceTag
    · rw [if_pos hShared] at hMem
      exact hStale info hMem
    · rw [if_neg hShared, hFree] at hMem
      exact absurd hMem List.not_mem_nil

end Stale

------------------------------------------------------------
-- Searches
------------------------------------------------------------

section Searches

variable {O : Type}
variable [DecidableEq O]
variable {h : Heap O}
variable {m : Addresses}
variable {refClasses : List O}
variable {target : O}
variable {start : jlong}
variable {tags : GcTags}

/- What is recorded for a report is not a deleted tag. -/
theorem NoneDeleted.report
    {state :
      Worklist.State O (Report O)
        (Tagged O jlong (Option GcTags))}
    {r : Report O}
    (hInvariant :
      CollectInvariant h m refClasses target start state)
    (hNone :
      ∀ tags, state.data.user = some tags →
        NoneDeleted m tags)
    (hPending : r ∈ state.pending) :
    ∀ tags',
      (Worklist.report h.graph (h.invoke (collectPaths m)) r
          state).data.user = some tags' →
        NoneDeleted m tags' := by
  intro tags' hUser'
  rcases hInvariant.user with ⟨tags, hUser, hTagged⟩
  have hAfter := (hInvariant.report hPending).2
  rcases hAfter.user with ⟨after, hSame, hTagged'⟩
  rw [hUser'] at hSame
  cases hSame
  rw [Worklist.report_data] at hUser' hTagged'
  rcases invoke_collectPaths_some hUser hUser' with
    ⟨a, hSome, hTag⟩
  have hAtMost := atMost_collectPath hSome
  apply (hNone tags hUser).atMost hAtMost
  intro info hMem
  rw [List.mem_singleton.mp hMem]
  have hSelf : IsPointer m tags' a := by
    have hReferee := hTagged'.pointer r.referee
    rw [hTag, Function.update_self] at hReferee
    exact hReferee
  unfold recordedInfo
  cases hReferrer :
      (h.arguments r state.data).referrerTag with
  | none => exact Or.inl (createReferenceInfo_tag _ _ _)
  | some b =>
      have hOther : IsPointer m tags b :=
        isPointer_referrerTag hTagged b hReferrer
      dsimp only
      rw [createReferenceInfo_tag]
      split_ifs
      · exact Or.inr hSelf
      · exact Or.inr (hAtMost.pointer b hOther)

/-
  However far the traversal of a search comes, no tag that
  the search may then follow was deleted.
-/
def ReadsNoDeleted
    (h : Heap O)
    (m : Addresses)
    (refClasses : List O)
    (target : O)
    (tags : GcTags) : Prop :=
  ∀ reports,
    Worklist.Valid h.graph (h.invoke (collectPaths m))
        reports
        (h.traversal none
          (initialTags m refClasses target tags).2) →
      let gathered :=
        createTags h m refClasses target tags reports
      ∃ tags', gathered.2.user = some tags' ∧
        ∀ a, Followed m tags' gathered.1 a →
          tags'.backRefs m a ≠ none

theorem NoStale.readsNoDeleted
    (hStale : NoStale m tags)
    (hFree : ∀ a, tags.store.get a = none)
    (h : Heap O)
    (refClasses : List O)
    (target : O) :
    ReadsNoDeleted h m refClasses target tags := by
  intro reports hValid gathered
  have hFinal :=
    Worklist.replay_invariant
      (fun state =>
        CollectInvariant h m refClasses target
            (initialTags m refClasses target tags).1 state ∧
          ∀ tags, state.data.user = some tags →
            NoneDeleted m tags)
      (fun _ _ hInvariant hPending =>
        ⟨(hInvariant.1.report hPending).2,
          NoneDeleted.report hInvariant.1 hInvariant.2
            hPending⟩)
      hValid
      ⟨CollectInvariant.init h m refClasses target tags, by
        intro tags' hUser
        rw [← Option.some.inj hUser]
        exact (hStale.noneDeleted hFree).atMost
          (atMost_new rfl)
          (fun _ hMem => absurd hMem List.not_mem_nil)⟩
  rcases hFinal with ⟨hInvariant, hNone⟩
  rcases hInvariant.user with ⟨tags', hUser, hTagged⟩
  refine ⟨tags', hUser, ?_⟩
  intro a hFollowed
  have hPointer : IsPointer m tags' a := by
    cases hFollowed with
    | refl =>
        have hTarget := hTagged.pointer target
        rw [hTagged.target_tag] at hTarget
        exact hTarget
    | tail _ hBack =>
        rcases hBack with ⟨hNotRoot, info, hMem, hEq⟩
        have hInfo := hNone tags' hUser _ info hMem
        rw [hEq] at hInfo
        exact hInfo.resolve_left hNotRoot
  rw [backRefs_of_pointer hPointer]
  exact Option.some_ne_none _

end Searches

end Roots

end MemoryAgent
