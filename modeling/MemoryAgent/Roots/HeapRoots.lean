import MemoryAgent.Roots.RealLinks
import MemoryAgent.Roots.WeakSoft

/-
  What the search for roots finds on a heap.  The callback
  records every reference that is reported, and every
  reference of a living object is, so that distances among
  tags are distances among objects.

  Key definitions include:
    * `Roots.reportedInfo`
    * `Roots.Noted`
    * `Roots.HeldBy`
    * `Roots.IsGcRoot`
    * `Roots.leadingRoots`

  Main results:
    * `Roots.noted_createTags`
    * `Roots.backReference_iff`
    * `Roots.findsClosestRoots`
-/

------------------------------------------------------------
-- What the Callback Adds
------------------------------------------------------------

namespace MemoryAgent

namespace Roots

open RecordStore ClosestGcRoots BreadthFirst

section Records

variable {m : Addresses}
variable {tags tags' tags'' : GcTags}
variable {a : jlong}

/- Back references may be added, but none is removed. -/
def Grown
    (m : Addresses)
    (tags tags' : GcTags) : Prop :=
  ∀ b, ∀ info ∈ tags.recorded m b,
    info ∈ tags'.recorded m b

theorem Grown.trans
    (hFirst : Grown m tags tags')
    (hSecond : Grown m tags' tags'') :
    Grown m tags tags'' :=
  fun b info hMem => hSecond b info (hFirst b info hMem)

theorem pointer_modify
    {f : GcTag → GcTag}
    (hNe : a ≠ 0)
    (hModify : tags.modify m a f = some tags')
    (b : jlong) :
    tags'.pointerToGcTag m b =
      if b = a then (tags.pointerToGcTag m a).map f
      else tags.pointerToGcTag m b := by
  unfold GcTags.modify at hModify
  rw [if_neg hNe] at hModify
  unfold GcTags.pointerToGcTag
  by_cases hShared : a = m.weakSoftReferenceTag
  · rw [if_pos hShared] at hModify
    cases hModify
    by_cases hEq : b = a
    · simp [hEq, hShared, m.ne_zero]
    · have hOther : b ≠ m.weakSoftReferenceTag := by
        rw [← hShared]
        exact hEq
      simp [hEq, hOther]
  · rw [if_neg hShared] at hModify
    rcases Option.map_eq_some_iff.mp hModify with
      ⟨t, hGet, hEq⟩
    cases hEq
    have hLive : tags.store.get a ≠ none := by
      rw [hGet]
      exact Option.some_ne_none t
    have hSet :
        ∀ c, (tags.store.set a (f t)).get c =
          if c = a then some (f t) else tags.store.get c :=
      Store.get_set hLive
    by_cases hEq : b = a
    · simp [hEq, hNe, hShared, hSet, hGet]
    · simp [hEq, hSet]

/- The tag at `a` gets `infos` in addition to what it had. -/
theorem backRefs_modify
    {f : GcTag → GcTag}
    {infos : List ReferenceInfo}
    (hNe : a ≠ 0)
    (hModify : tags.modify m a f = some tags')
    (hRefs : ∀ t, (f t).backRefs = t.backRefs ++ infos)
    (hPointer : tags.pointerToGcTag m a ≠ none) :
    Grown m tags tags' ∧
      (∀ info ∈ infos, info ∈ tags'.recorded m a) ∧
      tags'.pointerToGcTag m a ≠ none := by
  have hRead := pointer_modify hNe hModify
  rcases Option.ne_none_iff_exists'.mp hPointer with
    ⟨t, hT⟩
  have hSelf : tags'.pointerToGcTag m a = some (f t) := by
    rw [hRead, if_pos rfl, hT]
    rfl
  have hNow : tags'.recorded m a = t.backRefs ++ infos := by
    rw [GcTags.recorded_eq]
    rw [hSelf]
    exact hRefs t
  refine ⟨?_, ?_, ?_⟩
  · intro b info hMem
    by_cases hEq : b = a
    · rw [hEq] at hMem ⊢
      rw [GcTags.recorded_eq] at hMem
      rw [hT] at hMem
      rw [hNow]
      exact List.mem_append_left _ hMem
    · rw [GcTags.recorded_eq] at hMem ⊢
      rw [hRead, if_neg hEq]
      exact hMem
  · intro info hMem
    rw [hNow]
    exact List.mem_append_right _ hMem
  · rw [hSelf]
    exact Option.some_ne_none (f t)

theorem grown_new
    (t : GcTag) :
    Grown m tags (tags.new m t).2 := by
  intro b info hMem
  rw [GcTags.recorded_eq] at hMem ⊢
  by_cases hPointer : IsPointer m tags b
  · rw [pointer_new t hPointer]
    exact hMem
  · rcases not_or.mp hPointer with ⟨hZero, hRest⟩
    rcases not_or.mp hRest with ⟨hShared, hNone⟩
    have hRead : tags.pointerToGcTag m b = none := by
      unfold GcTags.pointerToGcTag
      rw [if_neg hZero, if_neg hShared]
      exact not_not.mp hNone
    rw [hRead] at hMem
    exact absurd hMem List.not_mem_nil

theorem backRefs_recordReferrer
    {args : ReferenceArguments jlong}
    (hNe : a ≠ 0)
    (hPointer : tags.pointerToGcTag m a ≠ none)
    (hRecord :
      recordReferrer m args a tags = some tags') :
    Grown m tags tags' ∧
      recordedInfo args a ∈ tags'.recorded m a ∧
      tags'.pointerToGcTag m a ≠ none := by
  unfold recordReferrer at hRecord
  unfold recordedInfo
  cases hTag : args.referrerTag with
  | none =>
      rw [hTag] at hRecord
      rcases backRefs_modify hNe hRecord (fun _ => rfl)
          hPointer with ⟨hGrown, hAdded, hLive⟩
      exact ⟨hGrown, hAdded _ (List.mem_singleton_self _),
        hLive⟩
  | some b =>
      rw [hTag] at hRecord
      simp only [Option.bind_eq_bind,
        Option.bind_eq_some_iff] at hRecord
      rcases hRecord with ⟨t, _, next, hState, hPush⟩
      have hUpdated :
          Grown m tags next ∧
            next.pointerToGcTag m a ≠ none := by
        unfold GcTags.updateState at hState
        split at hState
        · rcases backRefs_modify hNe hState
              (fun _ => (List.append_nil _).symm) hPointer
            with ⟨hGrown, _, hLive⟩
          exact ⟨hGrown, hLive⟩
        · cases hState
          exact ⟨fun _ _ hMem => hMem, hPointer⟩
      rcases backRefs_modify hNe hPush (fun _ => rfl)
          hUpdated.2 with ⟨hGrown, hAdded, hLive⟩
      exact ⟨hUpdated.1.trans hGrown,
        hAdded _ (List.mem_singleton_self _), hLive⟩

/- The back reference of the report is there afterwards. -/
theorem backRefs_collectPath
    {args : ReferenceArguments jlong}
    (hPointer :
      args.tag ≠ 0 → tags.pointerToGcTag m args.tag ≠ none)
    (hSome : collectPath m args tags = some (a, tags')) :
    (args.tag = 0 ∨ args.tag = a) ∧ a ≠ 0 ∧
      Grown m tags tags' ∧
      recordedInfo args a ∈ tags'.recorded m a := by
  have hRest :
      ∀ next c, c ≠ 0 → next.pointerToGcTag m c ≠ none →
        (do
          let next ← recordReferrer m args c next
          let next ← next.setVisited m c
          some (c, next)) = some (a, tags') →
        c = a ∧ Grown m next tags' ∧
          recordedInfo args a ∈ tags'.recorded m a := by
    intro next c hNe hLive hBoth
    simp only [Option.bind_eq_bind,
      Option.bind_eq_some_iff] at hBoth
    rcases hBoth with
      ⟨recorded, hRecord, visited, hVisit, hEq⟩
    cases hEq
    rcases backRefs_recordReferrer hNe hLive hRecord with
      ⟨hGrown, hAdded, hLive'⟩
    rcases backRefs_modify hNe hVisit
        (fun _ => (List.append_nil _).symm) hLive' with
      ⟨hSame, _, _⟩
    exact ⟨rfl, hGrown.trans hSame,
      hSame _ _ hAdded⟩
  unfold collectPath at hSome
  split at hSome
  · next hZero =>
      rcases Option.bind_eq_some_iff.mp hSome with
        ⟨⟨c, next⟩, hCreate, hBoth⟩
      rcases createdFor_ofWeakSoftReachable hCreate with
        ⟨t, hNew, _⟩
      have hNe : c ≠ 0 := by
        have hAddress := (@new_not_reserved m tags t).1
        rw [hNew] at hAddress
        exact hAddress
      have hShared : c ≠ m.weakSoftReferenceTag := by
        have hAddress := (@new_not_reserved m tags t).2
        rw [hNew] at hAddress
        exact hAddress
      have hGet : next.store.get c = some t := by
        have hCreated :
            (tags.new m t).2.store.get
                (tags.new m t).1 = some t :=
          (Store.get_create m.alloc _).trans (if_pos rfl)
        rw [hNew] at hCreated
        exact hCreated
      have hLive : next.pointerToGcTag m c ≠ none := by
        unfold GcTags.pointerToGcTag
        rw [if_neg hNe, if_neg hShared, hGet]
        exact Option.some_ne_none t
      have hGrown : Grown m tags next := by
        have hNewGrown := @grown_new m tags t
        rw [hNew] at hNewGrown
        exact hNewGrown
      rcases hRest next c hNe hLive hBoth with
        ⟨hEq, hAfter, hAdded⟩
      exact ⟨Or.inl hZero, hEq ▸ hNe, hGrown.trans hAfter,
        hAdded⟩
  · next hZero =>
      rcases hRest tags args.tag hZero (hPointer hZero)
          hSome with ⟨hEq, hGrown, hAdded⟩
      exact ⟨Or.inr hEq, hEq ▸ hZero, hGrown, hAdded⟩

end Records

------------------------------------------------------------
-- What the Traversal Records
------------------------------------------------------------

section Traversal

variable {O : Type}
variable {h : Heap O}
variable {m : Addresses}
variable {refClasses : List O}
variable {target : O}
variable {start : jlong}
variable {tags : GcTags}

/- The back reference that stands for a report. -/
def reportedInfo
    (tag : O → jlong)
    (r : Report O) : ReferenceInfo :=
  createReferenceInfo
    (match r.referrer with
      | none => rootTag
      | some p => tag p)
    r.reference.kind r.reference.info

/- The report has been recorded for its referee. -/
structure Noted
    (m : Addresses)
    (s : Tagged O jlong (Option GcTags))
    (r : Report O) : Prop where
  referee_tagged : s.tag r.referee ≠ 0
  referrer_tagged :
    ∀ p, r.referrer = some p → s.tag p ≠ 0
  info :
    ∀ tags, s.user = some tags →
      reportedInfo s.tag r ∈
        tags.recorded m (s.tag r.referee)

variable [DecidableEq O]

/- The callback records a report under its referrer's tag. -/
theorem recordedInfo_arguments
    {tag : O → jlong}
    {user : Option GcTags}
    {r : Report O}
    {a : jlong}
    (hReport : Reportable h tag r) :
    recordedInfo (h.arguments r ⟨tag, user⟩) a =
      reportedInfo (Function.update tag r.referee a) r := by
  unfold recordedInfo reportedInfo
  rcases hReport with hRoot | ⟨p, _, hTagP, hMem⟩
  · have hReferrer := ((h.mem_rootReports_iff r).mp hRoot).1
    simp [Heap.arguments, hReferrer]
  · have hReferrer := ((h.mem_reportsOf_iff p r).mp hMem).1
    by_cases hSelf : p = r.referee
    · simp [Heap.arguments, hReferrer, hSelf]
    · have hNot : ¬ p = r.reference.referee := hSelf
      simp [Heap.arguments, hReferrer, hNot]

/- A tagged object keeps its tag in a report. -/
theorem update_of_tagged
    {tag : O → jlong}
    {o p : O}
    {a : jlong}
    (hTag : tag o = 0 ∨ tag o = a)
    (hTagged : tag p ≠ 0) :
    Function.update tag o a p = tag p := by
  by_cases hEq : p = o
  · rw [hEq, Function.update_self]
    rw [hEq] at hTagged
    exact (hTag.resolve_left hTagged).symm
  · exact Function.update_of_ne hEq a tag

omit [DecidableEq O] in
theorem reportedInfo_congr
    {tag tag' : O → jlong}
    {r : Report O}
    (hSame :
      ∀ p, r.referrer = some p → tag' p = tag p) :
    reportedInfo tag' r = reportedInfo tag r := by
  unfold reportedInfo
  cases hReferrer : r.referrer with
  | none => rfl
  | some p => simp only [hSame p hReferrer]

/- Earlier reports stay noted, and the next one is. -/
theorem noted_report
    {r : Report O}
    {state :
      Worklist.State O (Report O)
        (Tagged O jlong (Option GcTags))}
    (hInvariant :
      CollectInvariant h m refClasses target start state)
    (hPending : r ∈ state.pending) :
    ∀ q, q = r ∨ Noted m state.data q →
      Noted m
        (Worklist.report h.graph
          (h.invoke (collectPaths m)) r state).data q := by
  rcases hInvariant.user with ⟨tags, hUser, hTagged⟩
  have hReport := hInvariant.pending r hPending
  have hNext := (hInvariant.report hPending).2
  rcases hNext.user with ⟨tags', hUser', _⟩
  rw [Worklist.report_data] at hUser' ⊢
  rcases invoke_collectPaths_some hUser hUser' with
    ⟨a, hSome, hTag⟩
  have hPointer :
      state.data.tag r.referee ≠ 0 →
        tags.pointerToGcTag m (state.data.tag r.referee) ≠
          none := by
    intro _
    rcases exists_pointerToGcTag
        (hTagged.pointer r.referee) with ⟨t, hT⟩
    rw [hT]
    exact Option.some_ne_none t
  rcases backRefs_collectPath hPointer hSome with
    ⟨hKind, hNe, hGrown, hAdded⟩
  have hKeep :
      ∀ p, state.data.tag p ≠ 0 →
        Function.update state.data.tag r.referee a p =
          state.data.tag p :=
    fun p => update_of_tagged hKind
  have hUsers :
      ∀ tags'',
        (h.invoke (collectPaths m) r state.data).1.user =
            some tags'' → tags'' = tags' :=
    fun tags'' hEq =>
      Option.some.inj (hEq.symm.trans hUser')
  rintro q (hEq | hNoted)
  · rw [hEq]
    constructor
    · rw [hTag, Function.update_self]
      exact hNe
    · intro p hReferrer
      rw [hTag]
      rcases hReport with hRoot | ⟨b, _, hTagB, hMem⟩
      · rw [((h.mem_rootReports_iff r).mp hRoot).1]
          at hReferrer
        cases hReferrer
      · rw [((h.mem_reportsOf_iff b r).mp hMem).1]
          at hReferrer
        rw [← Option.some.inj hReferrer, hKeep b hTagB]
        exact hTagB
    · intro tags'' hEqUser
      rw [hUsers tags'' hEqUser, hTag, Function.update_self,
        ← recordedInfo_arguments hReport]
      exact hAdded
  · constructor
    · rw [hTag, hKeep _ hNoted.referee_tagged]
      exact hNoted.referee_tagged
    · intro p hReferrer
      rw [hTag, hKeep p (hNoted.referrer_tagged p hReferrer)]
      exact hNoted.referrer_tagged p hReferrer
    · intro tags'' hEqUser
      have hInfo :
          reportedInfo
              (Function.update state.data.tag r.referee a)
              q =
            reportedInfo state.data.tag q :=
        reportedInfo_congr (fun p hReferrer =>
          hKeep p (hNoted.referrer_tagged p hReferrer))
      rw [hUsers tags'' hEqUser, hTag, hInfo,
        hKeep _ hNoted.referee_tagged]
      exact hGrown _ _ (hNoted.info tags hUser)

/- After the traversal every report is noted. -/
theorem noted_createTags
    (tags : GcTags)
    {reports : List (Report O)}
    (hReports :
      h.FollowReferences none (collectPaths m)
        (initialTags m refClasses target tags).2 reports) :
    ∀ r ∈ reports,
      Noted m
        (createTags h m refClasses target tags reports).2
        r := by
  have hBoth :=
    Worklist.replay_steps
      (fun n state =>
        CollectInvariant h m refClasses target
            (initialTags m refClasses target tags).1 state ∧
          ∀ r ∈ reports.take n, Noted m state.data r)
      ?_ hReports.1.1 ?_
  · have hAll := hBoth.2
    rw [List.take_length] at hAll
    exact hAll
  · rintro n state r ⟨hInvariant, hNoted⟩ hAt hPending
    refine ⟨(hInvariant.report hPending).2, ?_⟩
    intro q hMem
    rw [Heap.take_succ_of_getElem? hAt] at hMem
    apply noted_report hInvariant hPending
    rcases List.mem_append.mp hMem with hOld | hNew
    · exact Or.inr (hNoted q hOld)
    · exact Or.inl (List.mem_singleton.mp hNew)
  · refine ⟨CollectInvariant.init h m refClasses target
      tags, ?_⟩
    intro r hMem
    exact absurd hMem List.not_mem_nil

/- The references of living objects, and roots, are reported. -/
theorem reported_of_alive
    (tags : GcTags)
    {reports : List (Report O)}
    (hReports :
      h.FollowReferences none (collectPaths m)
        (initialTags m refClasses target tags).2 reports) :
    (∀ r ∈ h.rootReports, r ∈ reports) ∧
      ∀ p, Alive h p → ∀ r ∈ h.reportsOf p, r ∈ reports := by
  have hStep :
      ∀ state r,
        CollectInvariant h m refClasses target
            (initialTags m refClasses target tags).1 state →
          r ∈ state.pending →
            CollectInvariant h m refClasses target
              (initialTags m refClasses target tags).1
              (Worklist.report h.graph
                (h.invoke (collectPaths m)) r state) :=
    fun _ _ hInvariant hPending =>
      (hInvariant.report hPending).2
  have hVisit :
      ∀ state r,
        CollectInvariant h m refClasses target
            (initialTags m refClasses target tags).1 state →
          r ∈ state.pending →
            (h.invoke (collectPaths m) r state.data).2 =
              .visit :=
    fun _ _ hInvariant hPending => hInvariant.visit hPending
  have hInit :=
    CollectInvariant.init h m refClasses target tags
  have hAccounted :=
    Heap.accounted_followReferences _ hStep hVisit hInit
      hReports
  have hMet := hAccounted.met
  have hOut := hAccounted.out
  have hVisited := hAccounted.visited
  rw [List.take_length, hReports.1.2] at hMet
  rw [List.take_length, hReports.1.2] at hOut
  rw [List.take_length] at hVisited
  refine ⟨?_, ?_⟩
  · intro r hMem
    exact (hMet r hMem).resolve_right List.not_mem_nil
  · rintro p ⟨x, hRoot, hPath⟩ r hMem
    rcases Heap.reported_of_reachable _ hStep hVisit hInit
        hReports hRoot hPath with ⟨i, _, q, hQ, hEq⟩
    have hExpanded :=
      hVisited q (List.mem_of_getElem? hQ)
    rw [hEq] at hExpanded
    exact (hOut p hExpanded r hMem).resolve_right
      List.not_mem_nil

end Traversal

------------------------------------------------------------
-- Tags and Objects
------------------------------------------------------------

section Objects

variable {O : Type}
variable {h : Heap O}
variable {m : Addresses}
variable {refClasses : List O}
variable {target o : O}
variable {start : jlong}
variable {tag : O → jlong}
variable {tags : GcTags}

/- A living object holds a reference to `o`. -/
def HeldBy
    (h : Heap O)
    (o p : O) : Prop :=
  Alive h p ∧ h.Refers p o

/- A root reference other than a JNI one leads to it. -/
def IsGcRoot
    (h : Heap O)
    (o : O) : Prop :=
  ∃ r ∈ h.roots, r.referee = o ∧ r.kind.isJni = false

/- The roots from which references lead to the target. -/
noncomputable def leadingRoots
    [Fintype O]
    (h : Heap O)
    (target : O) : Finset O :=
  open Classical in
  Finset.univ.filter (fun o =>
    IsGcRoot h o ∧ h.Reachable o target)

theorem IsGcRoot.alive
    (hRoot : IsGcRoot h o) :
    Alive h o := by
  rcases hRoot with ⟨r, hMem, rfl, _⟩
  exact ⟨r, hMem, .refl⟩

/-
  Everything that a complete traversal reports is recorded
  in the tags it leaves.
-/
structure Complete
    (h : Heap O)
    (m : Addresses)
    (tag : O → jlong)
    (tags : GcTags) : Prop where
  roots :
    ∀ r ∈ h.rootReports, Noted m ⟨tag, some tags⟩ r
  held :
    ∀ p, Alive h p → ∀ r ∈ h.reportsOf p,
      Noted m ⟨tag, some tags⟩ r

theorem Complete.tagged
    (hComplete : Complete h m tag tags)
    (hAlive : Alive h o) :
    tag o ≠ 0 := by
  rcases hAlive with ⟨x, hRoot, hPath⟩
  cases hPath with
  | refl =>
      have hMem :
          (⟨none, x⟩ : Report O) ∈ h.rootReports :=
        (h.mem_rootReports_iff _).mpr ⟨rfl, hRoot⟩
      exact (hComplete.roots _ hMem).referee_tagged
  | @tail p _ hBefore hRefers =>
      rcases hRefers with ⟨y, hY, hEq⟩
      have hMem :
          (⟨some p, y⟩ : Report O) ∈ h.reportsOf p :=
        (h.mem_reportsOf_iff _ _).mpr ⟨rfl, hY⟩
      rw [← hEq]
      exact (hComplete.held p ⟨x, hRoot, hBefore⟩ _
        hMem).referee_tagged

/-
  A tagged object other than the class objects that share
  their tag, from which references lead to the target.
-/
structure OnTrail
    (h : Heap O)
    (refClasses : List O)
    (target : O)
    (tag : O → jlong)
    (o : O) : Prop where
  tagged : tag o ≠ 0
  not_carrier : ¬ Carrier refClasses target o
  reachable : h.Reachable o target

theorem OnTrail.of_alive
    (hComplete : Complete h m tag tags)
    (hApart : Apart h refClasses target)
    (hAlive : Alive h o)
    (hReachable : h.Reachable o target) :
    OnTrail h refClasses target tag o :=
  ⟨hComplete.tagged hAlive,
    fun hCarrier => hApart o hCarrier hAlive hReachable,
    hReachable⟩

theorem OnTrail.heldBy
    {p : O}
    (hComplete : Complete h m tag tags)
    (hApart : Apart h refClasses target)
    (hTrail : OnTrail h refClasses target tag o)
    (hHeld : HeldBy h o p) :
    OnTrail h refClasses target tag p :=
  .of_alive hComplete hApart hHeld.1
    (hTrail.reachable.head hHeld.2)

theorem onTrail_target
    (hTagged :
      WellTagged h m refClasses target start tag tags) :
    OnTrail h refClasses target tag target := by
  refine ⟨?_, fun hCarrier => hCarrier.2 rfl, .refl⟩
  rw [hTagged.target_tag]
  exact hTagged.start_ne_zero

theorem OnTrail.ne_shared
    (hTagged :
      WellTagged h m refClasses target start tag tags)
    (hTrail : OnTrail h refClasses target tag o) :
    tag o ≠ m.weakSoftReferenceTag :=
  fun hEq => hTrail.not_carrier ((hTagged.shared o).mp hEq)

theorem OnTrail.inj
    {p : O}
    (hTagged :
      WellTagged h m refClasses target start tag tags)
    (hTrail : OnTrail h refClasses target tag o)
    (hSame : tag o = tag p) :
    o = p :=
  hTagged.inj o p hTrail.tagged (hTrail.ne_shared hTagged)
    hSame

/- The tags recorded for an object are those of its holders. -/
theorem backReference_iff
    (hTagged :
      WellTagged h m refClasses target start tag tags)
    (hComplete : Complete h m tag tags)
    (hTrail : OnTrail h refClasses target tag o)
    (t : jlong) :
    BackReference (tags.recorded m) (tag o) t ↔
      ∃ p, HeldBy h o p ∧ tag p = t := by
  constructor
  · rintro ⟨hNotRoot, info, hInfo, rfl⟩
    rcases hTagged.denotes hTrail.tagged
        (hTrail.ne_shared hTagged) hInfo with
      ⟨r, _, _, rfl⟩ | ⟨p, hAlive, _, r, hR, hReferee, rfl⟩
    · exact absurd (createReferenceInfo_tag _ _ _) hNotRoot
    · exact ⟨p, ⟨hAlive, r, hR, hReferee⟩,
        (createReferenceInfo_tag _ _ _).symm⟩
  · rintro ⟨p, ⟨hAlive, y, hY, rfl⟩, rfl⟩
    have hMem :
        (⟨some p, y⟩ : Report O) ∈ h.reportsOf p :=
      (h.mem_reportsOf_iff _ _).mpr ⟨rfl, hY⟩
    have hInfo :=
      (hComplete.held p hAlive _ hMem).info tags rfl
    exact ⟨hTagged.ne_root p, _, hInfo,
      createReferenceInfo_tag _ _ _⟩

theorem isValidGcRoot_createReferenceInfo
    (r : Reference O) :
    isValidGcRoot rootTag r.kind =
      !r.kind.isJni := by
  cases hKind : r.kind <;> decide

/- The search counts a tag for the roots of its object. -/
theorem hasGcRoot_iff
    (hTagged :
      WellTagged h m refClasses target start tag tags)
    (hComplete : Complete h m tag tags)
    (hTrail : OnTrail h refClasses target tag o) :
    hasGcRoot (tags.recorded m) (tag o) = true ↔
      IsGcRoot h o := by
  unfold hasGcRoot
  rw [List.any_eq_true]
  constructor
  · rintro ⟨info, hInfo, hValid⟩
    have hRootTag := isValidGcRoot_tag hValid
    rcases hTagged.denotes hTrail.tagged
        (hTrail.ne_shared hTagged) hInfo with
      ⟨r, hR, hReferee, rfl⟩ | ⟨p, _, _, r, _, _, rfl⟩
    · rw [createReferenceInfo_tag, createReferenceInfo_kind,
        isValidGcRoot_createReferenceInfo] at hValid
      exact ⟨r, hR, hReferee, by simpa using hValid⟩
    · rw [createReferenceInfo_tag] at hRootTag
      exact absurd hRootTag (hTagged.ne_root p)
  · rintro ⟨r, hR, rfl, hKind⟩
    have hMem :
        (⟨none, r⟩ : Report O) ∈ h.rootReports :=
      (h.mem_rootReports_iff _).mpr ⟨rfl, hR⟩
    have hInfo := (hComplete.roots _ hMem).info tags rfl
    refine ⟨_, hInfo, ?_⟩
    unfold reportedInfo
    rw [createReferenceInfo_tag, createReferenceInfo_kind,
      isValidGcRoot_createReferenceInfo, hKind]
    rfl

/- Distances among tags are distances among objects. -/
theorem isDistance_tag_iff
    (hTagged :
      WellTagged h m refClasses target start tag tags)
    (hComplete : Complete h m tag tags)
    (hApart : Apart h refClasses target)
    (hAlive : Alive h o)
    (n : Nat) :
    IsDistance (BackReference (tags.recorded m)) start
        (tag o) n ↔
      IsDistance h.Refers o target n := by
  have hTags :
      IsDistance (BackReference (tags.recorded m))
          (tag target) (tag o) n ↔
        IsDistance (HeldBy h) target o n :=
    isDistance_image_iff
      (fun _ _ hTrail hHeld =>
        hTrail.heldBy hComplete hApart hHeld)
      (fun _ hTrail t =>
        backReference_iff hTagged hComplete hTrail t)
      (fun _ _ hTrail hSame => hTrail.inj hTagged hSame)
      (onTrail_target hTagged)
  rw [← hTagged.target_tag, hTags]
  -- Whatever a living object leads to is alive.
  have hObjects :
      IsDistance h.Refers (id o) (id target) n ↔
        IsDistance (fun a b => HeldBy h b a) o target n := by
    apply isDistance_image_iff (D := Alive h)
    · rintro a b ⟨x, hRoot, hPath⟩ ⟨_, hRefers⟩
      exact ⟨x, hRoot, hPath.tail hRefers⟩
    · intro a hA t
      constructor
      · intro hRefers
        exact ⟨t, ⟨hA, hRefers⟩, rfl⟩
      · rintro ⟨b, ⟨_, hRefers⟩, rfl⟩
        exact hRefers
    · exact fun _ _ _ hEq => hEq
    · exact hAlive
  exact isDistance_flip_iff.symm.trans hObjects.symm

/- A tag that the search reaches is one of the trail. -/
theorem exists_onTrail
    (hTagged :
      WellTagged h m refClasses target start tag tags)
    (hComplete : Complete h m tag tags)
    (hApart : Apart h refClasses target)
    {n : Nat}
    {t : jlong}
    (hSteps :
      Steps (BackReference (tags.recorded m)) n start t) :
    ∃ p, OnTrail h refClasses target tag p ∧ tag p = t := by
  have hClosed :
      ∀ a b, OnTrail h refClasses target tag a →
        HeldBy h a b → OnTrail h refClasses target tag b :=
    fun _ _ hTrail hHeld =>
      hTrail.heldBy hComplete hApart hHeld
  rw [← hTagged.target_tag] at hSteps
  rcases (steps_image_iff hClosed
      (fun _ hTrail t =>
        backReference_iff hTagged hComplete hTrail t)
      (onTrail_target hTagged) t).mp hSteps with
    ⟨p, hSteps', hEq⟩
  exact ⟨p, hSteps'.closed hClosed (onTrail_target hTagged),
    hEq⟩

/- An object of the trail whose tag the search has met. -/
structure Discovered
    (h : Heap O)
    (refClasses : List O)
    (target : O)
    (tag : O → jlong)
    (s : Search)
    (o : O) : Prop where
  onTrail : OnTrail h refClasses target tag o
  prevTag : s.prevTag (tag o) ≠ none

/- One link of the search leads to the object it names. -/
theorem Discovered.next
    {number : Int32}
    {depth : jlong → Nat}
    {s : Search}
    (hTagged :
      WellTagged h m refClasses target start tag tags)
    (hComplete : Complete h m tag tags)
    (hApart : Apart h refClasses target)
    (hExplored :
      Explored (tags.recorded m) start number depth s)
    (hDiscovered :
      Discovered h refClasses target tag s o)
    (hNe : o ≠ target)
    {b : jlong}
    (hPrev : s.prevTag (tag o) = some b) :
    ∃ q, tag q = b ∧
      Discovered h refClasses target tag s q ∧
      h.Refers o q ∧ depth (tag o) = depth b + 1 := by
  have hTree := hExplored.tree
  have hNotStart : tag o ≠ start := by
    intro hEq
    rw [← hTagged.target_tag] at hEq
    exact hNe (hDiscovered.onTrail.inj hTagged hEq)
  rcases hTree.step (tag o) b hNotStart hPrev with
    ⟨hBack, hDepth⟩
  have hPrevB := hTree.total (tag o) b hPrev
  have hSteps :
      ∃ n, Steps (BackReference (tags.recorded m)) n start
        b := by
    rcases hExplored.frontier with ⟨done, queue, hFrontier⟩
    exact ⟨_, hFrontier.steps_depth
      ((hFrontier.discovered b).mp hPrevB)⟩
  rcases hSteps with ⟨n, hSteps⟩
  rcases exists_onTrail hTagged hComplete hApart hSteps with
    ⟨q, hTrail, rfl⟩
  rcases (backReference_iff hTagged hComplete hTrail _).mp
      hBack with ⟨o', hHeld, hSame⟩
  rw [← hDiscovered.onTrail.inj hTagged hSame.symm] at hHeld
  exact ⟨q, rfl, ⟨hTrail, hPrevB⟩, hHeld.2, hDepth⟩

/- The links of the search are references of the heap. -/
theorem Discovered.steps
    {number : Int32}
    {depth : jlong → Nat}
    {s : Search}
    (hTagged :
      WellTagged h m refClasses target start tag tags)
    (hComplete : Complete h m tag tags)
    (hApart : Apart h refClasses target)
    (hExplored :
      Explored (tags.recorded m) start number depth s)
    (hDiscovered :
      Discovered h refClasses target tag s o) :
    Steps
      (fun a b =>
        h.Refers a b ∧ a ≠ target ∧
          s.prevTag (tag a) = some (tag b))
      (depth (tag o)) o target := by
  generalize hDepth : depth (tag o) = d
  induction d generalizing o with
  | zero =>
      by_contra hNe
      rcases Option.ne_none_iff_exists'.mp
          hDiscovered.prevTag with ⟨b, hB⟩
      rcases hDiscovered.next hTagged hComplete hApart
          hExplored hNe hB with ⟨_, _, _, _, hNext⟩
      omega
  | succ d ih =>
      have hNe : o ≠ target := by
        intro hEq
        rw [hEq, hTagged.target_tag,
          hExplored.start_depth] at hDepth
        cases hDepth
      rcases Option.ne_none_iff_exists'.mp
          hDiscovered.prevTag with ⟨b, hB⟩
      rcases hDiscovered.next hTagged hComplete hApart
          hExplored hNe hB with
        ⟨p, rfl, hP, hRefers, hNext⟩
      exact steps_succ_iff.mpr
        ⟨p, ⟨hRefers, hNe, hB⟩, ih hP (by omega)⟩

end Objects

------------------------------------------------------------
-- The Closest Roots of the Heap
------------------------------------------------------------

section Closest

variable {O : Type}
variable [Fintype O]
variable {h : Heap O}
variable {m : Addresses}
variable {refClasses : List O}
variable {target : O}
variable {start : jlong}
variable {tag : O → jlong}
variable {tags : GcTags}

/-
  The objects with a root reference that are the fewest
  references away from the target, as many as wanted or as
  there are.
-/
structure ClosestRoots
    (h : Heap O)
    (target : O)
    (number : Int32)
    (roots : List O)
    (distance : O → Nat) : Prop where
  nodup : roots.Nodup
  isGcRoot : ∀ o ∈ roots, IsGcRoot h o
  isDistance :
    ∀ o ∈ roots, IsDistance h.Refers o target (distance o)
  sorted :
    roots.Pairwise (fun a b => distance a ≤ distance b)
  length_eq :
    (roots.length : Int) =
      min number.toInt (leadingRoots h target).card
  closest :
    ∀ other n, IsGcRoot h other →
      IsDistance h.Refers other target n →
        other ∉ roots → ∀ o ∈ roots, distance o ≤ n

/-
  The found roots are the tags of these objects, and the
  links of the search lead from each of them to the target
  along a shortest path.
-/
structure ClosestOnHeap
    (h : Heap O)
    (target : O)
    (number : Int32)
    (tag : O → jlong)
    (s : Search)
    (roots : List O)
    (distance : O → Nat) : Prop
    extends ClosestRoots h target number roots distance where
  foundRoots_eq : s.foundRoots = roots.map tag
  chain :
    ∀ o ∈ roots,
      Steps
        (fun a b =>
          h.Refers a b ∧ a ≠ target ∧
            s.prevTag (tag a) = some (tag b))
        (distance o) o target

theorem card_backReferenceGraph_le
    (hTagged :
      WellTagged h m refClasses target start tag tags)
    (hApart : Apart h refClasses target) :
    (backReferenceGraph hTagged hApart).tags.card ≤
      Fintype.card O := by
  classical
  exact Finset.card_image_le.trans
    (Finset.card_le_univ _)

/- The root tags that the search can reach. -/
theorem reachableRoots_eq
    [DecidableEq O]
    (hTagged :
      WellTagged h m refClasses target start tag tags)
    (hComplete : Complete h m tag tags)
    (hApart : Apart h refClasses target) :
    reachableRoots (backReferenceGraph hTagged hApart)
        start =
      (leadingRoots h target).image tag := by
  classical
  ext t
  rw [mem_reachableRoots_iff _
    (start_mem_backReferenceGraph hTagged hApart),
    Finset.mem_image]
  constructor
  · rintro ⟨n, hRoot, hDistance⟩
    rcases exists_onTrail hTagged hComplete hApart
        hDistance.1 with ⟨o, hTrail, rfl⟩
    refine ⟨o, Finset.mem_filter.mpr
      ⟨Finset.mem_univ o, ?_, hTrail.reachable⟩, rfl⟩
    exact (hasGcRoot_iff hTagged hComplete hTrail).mp hRoot
  · rintro ⟨o, hMem, rfl⟩
    rcases (Finset.mem_filter.mp hMem).2 with
      ⟨hRoot, hReachable⟩
    have hTrail : OnTrail h refClasses target tag o :=
      .of_alive hComplete hApart hRoot.alive hReachable
    rcases exists_isDistance hReachable with ⟨n, hDistance⟩
    exact ⟨n,
      (hasGcRoot_iff hTagged hComplete hTrail).mpr hRoot,
      (isDistance_tag_iff hTagged hComplete hApart
        hRoot.alive n).mpr hDistance⟩

/- Distinct roots have distinct tags. -/
theorem card_reachableRoots
    [DecidableEq O]
    (hTagged :
      WellTagged h m refClasses target start tag tags)
    (hComplete : Complete h m tag tags)
    (hApart : Apart h refClasses target) :
    (reachableRoots (backReferenceGraph hTagged hApart)
        start).card =
      (leadingRoots h target).card := by
  classical
  rw [reachableRoots_eq hTagged hComplete hApart]
  apply Finset.card_image_of_injOn
  intro a hA b _ hSame
  rcases (Finset.mem_filter.mp hA).2 with
    ⟨hRoot, hReachable⟩
  have hTrail : OnTrail h refClasses target tag a :=
    .of_alive hComplete hApart hRoot.alive hReachable
  exact hTrail.inj hTagged hSame

/- The search on the tags of a complete traversal. -/
theorem exists_closestOnHeap
    (hTagged :
      WellTagged h m refClasses target start tag tags)
    (hComplete : Complete h m tag tags)
    (hApart : Apart h refClasses target)
    {number : Int32}
    (hNumber : 1 ≤ number.toInt) :
    ∃ s depth roots,
      (∀ fuel, Fintype.card O + 1 ≤ fuel →
        searchTags (tags.backRefs m) start number fuel =
          some s) ∧
      Explored (tags.recorded m) start number depth s ∧
      ClosestOnHeap h target number tag s roots
        (fun o => depth (tag o)) := by
  classical
  have hStart :=
    start_mem_backReferenceGraph hTagged hApart
  have hCard := card_backReferenceGraph_le hTagged hApart
  have hSize := toSize_pos hNumber
  have hFew :
      (initialSearch start).foundRoots.length <
        toSize number := by
    change 0 < toSize number
    omega
  rcases searchLoop_outcome
      (backReferenceGraph hTagged hApart) hStart
      (Fintype.card O + 1) (by simp; omega) hFew
      Searched.init with
    ⟨s, hLoop, hOutcome⟩
  rcases hOutcome.found _ hStart with ⟨_, _, hLength⟩
  have hSearch :
      search (tags.recorded m) start number
          (Fintype.card O + 1) =
        some s :=
    hLoop
  rcases explored_of_search hStart hSearch with
    ⟨depth, hExplored⟩
  have hFound := hExplored.found
  -- Every found tag belongs to an object of the trail.
  have hObject :
      ∀ t ∈ s.foundRoots,
        ∃ o, OnTrail h refClasses target tag o ∧
          tag o = t := by
    intro t hMem
    exact exists_onTrail hTagged hComplete hApart
      (hFound.rootAt t hMem).2.1
  have hRange : s.foundRoots ∈ Set.range (List.map tag) := by
    rw [Set.range_list_map]
    intro t hMem
    rcases hObject t hMem with ⟨o, _, hEq⟩
    exact ⟨o, hEq⟩
  rcases hRange with ⟨roots, hRoots⟩
  have hMemTag :
      ∀ o, o ∈ roots → tag o ∈ s.foundRoots := by
    intro o hMem
    rw [← hRoots]
    exact List.mem_map_of_mem hMem
  have hTrail :
      ∀ o ∈ roots, OnTrail h refClasses target tag o := by
    intro o hMem
    rcases hObject (tag o) (hMemTag o hMem) with
      ⟨p, hTrail, hSame⟩
    rw [← hTrail.inj hTagged hSame]
    exact hTrail
  have hIsRoot : ∀ o ∈ roots, IsGcRoot h o := by
    intro o hMem
    exact (hasGcRoot_iff hTagged hComplete
      (hTrail o hMem)).mp
        (hFound.rootAt _ (hMemTag o hMem)).1
  refine ⟨s, depth, roots, ?_, hExplored, ?_⟩
  · intro fuel hFuel
    rcases Nat.exists_eq_add_of_le hFuel with ⟨more, rfl⟩
    rw [searchTags_backRefs hTagged hApart]
    exact searchLoop_add_fuel _ more hLoop
  · refine ⟨⟨?_, hIsRoot, ?_, ?_, ?_, ?_⟩, hRoots.symm, ?_⟩
    · have hNodup := hFound.nodup
      rw [← hRoots] at hNodup
      exact hNodup.of_map
    · intro o hMem
      exact (isDistance_tag_iff hTagged hComplete hApart
        (hIsRoot o hMem).alive _).mp
          (hFound.rootAt _ (hMemTag o hMem)).2
    · have hSorted := hFound.sorted
      rw [← hRoots, List.pairwise_map] at hSorted
      exact hSorted
    · rw [card_reachableRoots hTagged hComplete hApart,
        ← hRoots, List.length_map] at hLength
      rw [hLength, ← hSize]
      omega
    · intro other n hRoot hDistance hOther o hMem
      have hReachable := hDistance.1.reflTransGen
      have hTrailOther :
          OnTrail h refClasses target tag other :=
        .of_alive hComplete hApart hRoot.alive hReachable
      refine hFound.closest (tag other) n
        ⟨(hasGcRoot_iff hTagged hComplete
            hTrailOther).mpr hRoot,
          (isDistance_tag_iff hTagged hComplete hApart
            hRoot.alive n).mpr hDistance⟩ ?_ (tag o)
          (hMemTag o hMem)
      intro hIn
      rw [← hRoots] at hIn
      rcases List.mem_map.mp hIn with ⟨p, hP, hSame⟩
      rw [← hTrailOther.inj hTagged hSame.symm] at hP
      exact hOther hP
    · intro o hMem
      have hDiscovered :
          Discovered h refClasses target tag s o :=
        ⟨hTrail o hMem,
          hExplored.discovered (hMemTag o hMem)⟩
      exact hDiscovered.steps hTagged hComplete hApart
        hExplored

omit [Fintype O] in
/- What an uninterrupted traversal leaves is complete. -/
theorem complete_createTags
    [DecidableEq O]
    (tags : GcTags)
    {reports : List (Report O)}
    (hReports :
      h.FollowReferences none (collectPaths m)
        (initialTags m refClasses target tags).2 reports)
    {tags' : GcTags}
    (hUser :
      (createTags h m refClasses target tags
        reports).2.user = some tags') :
    Complete h m
      (createTags h m refClasses target tags reports).2.tag
      tags' := by
  have hNoted := noted_createTags tags hReports
  rcases reported_of_alive tags hReports with
    ⟨hRootReports, hHeld⟩
  have hState :
      (⟨(createTags h m refClasses target tags
          reports).2.tag, some tags'⟩ :
          Tagged O jlong (Option GcTags)) =
        (createTags h m refClasses target tags
          reports).2 := by
    rw [← hUser]
  constructor
  · intro r hMem
    rw [hState]
    exact hNoted r (hRootReports r hMem)
  · intro p hAlive r hMem
    rw [hState]
    exact hNoted r (hHeld p hAlive r hMem)

/-
  After an uninterrupted traversal of the heap the search
  finds the objects with a root reference, other than a JNI
  one, that are the fewest references away from the target,
  provided that no class object that shares its tag leads to
  the target.
-/
theorem findsClosestRoots
    [DecidableEq O]
    (h : Heap O)
    (m : Addresses)
    (refClasses : List O)
    (target : O)
    (number : Int32)
    (tags : GcTags)
    (reports : List (Report O))
    (hReports :
      h.FollowReferences none (collectPaths m)
        (initialTags m refClasses target tags).2 reports)
    (hApart : Apart h refClasses target)
    (hNumber : 1 ≤ number.toInt) :
    ∃ tags' s roots distance,
      (createTags h m refClasses target tags
          reports).2.user = some tags' ∧
      (∀ fuel, Fintype.card O + 1 ≤ fuel →
        searchTags (tags'.backRefs m)
            (createTags h m refClasses target tags
              reports).1 number fuel = some s) ∧
      ClosestOnHeap h target number
        (createTags h m refClasses target tags
          reports).2.tag s roots distance := by
  rcases createTags_wellTagged m tags hReports with
    ⟨tags', hUser, hTagged⟩
  have hComplete := complete_createTags tags hReports hUser
  rcases exists_closestOnHeap hTagged hComplete hApart
      hNumber with
    ⟨s, depth, roots, hSearch, _, hClosest⟩
  exact ⟨tags', s, roots, _, hUser, hSearch, hClosest⟩

end Closest

theorem apart_twoReferenceClasses :
    Apart twoReferenceClasses [2] 1 := by
  rintro c ⟨hMem, _⟩ _ hPath
  rw [List.mem_singleton.mp hMem] at hPath
  rcases Relation.ReflTransGen.cases_head hPath with
    hEq | ⟨b, ⟨r, hR, _⟩, _⟩
  · exact absurd hEq (by decide)
  · exact absurd hR List.not_mem_nil

/- A thread leads to object 1, by way of object 0. -/
theorem findsClosestRoots_thread :
    ∃ tags' s roots distance,
      (createTags twoReferenceClasses ascendingAddresses [2]
          1 noTags twoReferenceClassesReports).2.user =
        some tags' ∧
      (∀ fuel, 5 ≤ fuel →
        searchTags (tags'.backRefs ascendingAddresses)
            (createTags twoReferenceClasses
              ascendingAddresses [2] 1 noTags
              twoReferenceClassesReports).1 10 fuel =
          some s) ∧
      ClosestOnHeap twoReferenceClasses 1 10
        (createTags twoReferenceClasses ascendingAddresses
          [2] 1 noTags twoReferenceClassesReports).2.tag s
        roots distance := by
  exact findsClosestRoots twoReferenceClasses
    ascendingAddresses [2] 1 10 noTags
    twoReferenceClassesReports (by decide)
    apart_twoReferenceClasses (by decide)

end Roots

end MemoryAgent
