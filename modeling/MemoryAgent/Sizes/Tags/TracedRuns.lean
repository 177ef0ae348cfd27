import MemoryAgent.Sizes.Tags.Provenance

/-
  In every state of a run an object carries an index only
  when a start object with this index reaches it along the
  references of the heap.

  Key definitions include:
    * `SizesTags.Query.Traced`
    * `SizesTags.Origins`

  Main results:
    * `SizesTags.TracedAt.execute`
    * `SizesTags.Uninterrupted.traced`
-/

------------------------------------------------------------
-- Tracing
------------------------------------------------------------

namespace MemoryAgent

namespace SizesTags

open RecordStore TagMemory TagInfoArray

section Tracing

variable {O : Type}
variable {q : Query O}
variable {m : TagAddresses}
variable {h : Heap O}
variable {tag : O → jlong}
variable {tags tags' : TagMemory}
variable {data : Tagged O jlong (Option TagMemory)}
variable {o : O}
variable {b : jlong}
variable {more : Nat → Prop}

/- A start object with the index reaches the object. -/
def Query.Reaches
    (q : Query O)
    (h : Heap O)
    (o : O)
    (k : Nat) : Prop :=
  ∃ s, k ∈ q.starts s ∧ h.Reachable s o

def Query.Traced
    (q : Query O)
    (m : TagAddresses)
    (h : Heap O)
    (tag : O → jlong)
    (tags : TagMemory) : Prop :=
  ∀ o, ∀ k ∈ tags.indicesAt m (tag o), q.Reaches h o k

theorem Query.Traced.start
    (hZero : ∀ o, tag o = 0) :
    q.Traced m h tag tags := by
  intro o k hMem
  rw [hZero, indicesAt, viewAt_zero] at hMem
  exact absurd hMem List.not_mem_nil

theorem Query.Traced.sameTags
    (hTraced : q.Traced m h tag tags)
    (hSame : SameTags tags tags') :
    q.Traced m h tag tags' := by
  intro o k hMem
  apply hTraced o k
  rw [indicesAt, ← viewAt_congr (by rw [hSame])]
  exact hMem

/- Tagged objects bring their indices along a reference. -/
theorem Query.Traced.of_referrer
    {a : O}
    {k : Nat}
    (hTraced : q.Traced m h tag tags)
    (hRefers : h.Refers a o)
    (hMem : k ∈ tags.indicesAt m (tag a)) :
    q.Reaches h o k := by
  rcases hTraced a k hMem with ⟨s, hStart, hReachable⟩
  exact ⟨s, hStart, hReachable.tail hRefers⟩

variable [DecidableEq O]

theorem Query.Traced.step
    (hTraced : q.Traced m h tag tags)
    (hSourced : Sourced m tag tags o more b tags')
    (hMore : ∀ k, more k → q.Reaches h o k) :
    q.Traced m h (Function.update tag o b) tags' := by
  intro p k hMem
  by_cases hP : p = o
  · rw [hP, Function.update_self] at hMem
    rw [hP]
    rcases hSourced.self k hMem with hOld | hNew
    · exact hTraced o k hOld
    · exact hMore k hNew
  · rw [Function.update_of_ne hP, hSourced.others p hP] at hMem
    exact hTraced p k hMem

theorem Query.Traced.given
    (hTraced : q.Traced m h tag tags)
    (hSourced :
      Sourced m tag tags o (· ∈ q.starts o) b tags') :
    q.Traced m h (Function.update tag o b) tags' :=
  hTraced.step hSourced
    (fun _ hMem => ⟨o, hMem, Relation.ReflTransGen.refl⟩)

theorem Query.Traced.brought
    {r : Report O}
    (hTraced : q.Traced m h data.tag tags)
    (hReal : ∀ a, r.referrer = some a → r ∈ h.reportsOf a)
    (hSourced :
      Sourced m data.tag tags r.referee
        (Brought m tags (h.arguments r data).referrerTag) b
        tags') :
    q.Traced m h (Function.update data.tag r.referee b)
      tags' := by
  refine hTraced.step hSourced ?_
  rintro k ⟨c, hReferrer, hMem⟩
  rcases Option.map_eq_some_iff.mp hReferrer with
    ⟨a, hA, hTag⟩
  rw [← hTag] at hMem
  have hReference := (h.mem_reportsOf_iff a r).mp (hReal a hA)
  exact hTraced.of_referrer
    ⟨r.reference, hReference.2, rfl⟩ hMem

end Tracing

------------------------------------------------------------
-- Creation
------------------------------------------------------------

section Creation

variable {O : Type}
variable [Fintype O]
variable [DecidableEq O]
variable {q : Query O}
variable {m : TagAddresses}
variable {h : Heap O}
variable {ids : O → List Nat}
variable {tag : O → jlong}
variable {tags tags' : TagMemory}
variable {o : O}
variable {b : jlong}
variable {i : Nat}
variable {more : Nat → Prop}

theorem indicesAt_of_content
    {a : jlong}
    {c : Content}
    (hContent : tags.contentAt m a = some c) :
    tags.indicesAt m a = indices c.infos := by
  rcases Option.map_eq_some_iff.mp hContent with ⟨t, hT, hEq⟩
  rw [indicesAt_of_dereference hT, ← hEq]
  rfl

theorem indicesAt_congr_content
    {a c : jlong}
    (hSame : tags'.contentAt m a = tags.contentAt m c) :
    tags'.indicesAt m a = tags.indicesAt m c := by
  have hView (tags : TagMemory) (a : jlong) :
      tags.viewAt Tag.indexView m a =
        (tags.contentAt m a).map
          (fun x => indices x.infos) := by
    unfold TagMemory.contentAt viewAt
    rw [Option.map_map]
    rfl
  exact indicesAt_congr (by rw [hView, hView, hSame])

omit [Fintype O] [DecidableEq O] in
theorem Sourced.started
    {l : List Nat}
    {isStartTag : Bool}
    (hOthers :
      ∀ p, p ≠ o →
        tags'.contentAt m (tag p) =
          tags.contentAt m (tag p))
    (hSelf :
      tags'.contentAt m b =
        some ⟨l.map startInfo, isStartTag⟩)
    (hStarts : ∀ k ∈ l, k ∈ q.starts o) :
    Sourced m tag tags o (· ∈ q.starts o) b tags' := by
  refine ⟨fun p hP => indicesAt_congr_content (hOthers p hP),
    fun k hMem => ?_⟩
  rw [indicesAt_of_content hSelf, indices_startInfo] at hMem
  exact Or.inr (hStarts k hMem)

theorem createTagForObject_sourced
    {todo : List (O × Nat)}
    (hApart : q.Apart)
    (hOwned : Owned m tag tags)
    (hCreating : q.Creating m ((o, i) :: todo) tag tags)
    (hSome :
      createTagForObject m i (tag o) tags =
        some (b, tags')) :
    Sourced m tag tags o (· ∈ q.starts o) b tags' := by
  have hIndices : indicesIn ((o, i) :: todo) o ≠ [] := by
    rw [indicesIn_cons_self]
    exact List.cons_ne_nil _ _
  rcases hCreating o with
    ⟨hNil, _⟩ | ⟨_, l, hStarts, hCreated⟩
  · exact absurd hNil hIndices
  rw [indicesIn_cons_self] at hStarts
  have hMem : i ∈ q.starts o := by
    rw [hStarts]
    exact List.mem_append_right l List.mem_cons_self
  have hMod : i % querySize = i :=
    Nat.mod_eq_of_lt
      (Nat.lt_trans (q.starts_lt o i hMem) q.count_lt)
  rcases createTagForObject_contentAt (hOwned.inUse o) hSome
    with ⟨_, _, hSelf, hOthers⟩ |
      ⟨⟨hZero, hNew⟩, hB, hOthers, t, hT, hSelf⟩
  · rw [hMod] at hSelf
    refine .started (l := [i])
      (fun p _ => hOthers (tag p) (hOwned.inUse p)) hSelf ?_
    intro k hK
    rw [List.mem_singleton.mp hK]
    exact hMem
  · rcases hCreated with ⟨_, hUnset⟩ | ⟨hNe, hNot, hContent⟩
    · exact absurd hUnset (not_or.mpr ⟨hZero, hNew⟩)
    · have hApartTags (p : O) (hP : p ≠ o) : tag p ≠ tag o :=
        hCreating.tag_ne hApart hStarts hNe hNot hContent hP
      rw [hT] at hContent
      have hInfos : t.array.infos = l.map startInfo :=
        congrArg Content.infos (Option.some.inj hContent)
      rw [hMod, Query.extend_infos hStarts hInfos] at hSelf
      rw [hB]
      refine .started (l := l ++ [i])
        (fun p hP => hOthers (tag p) (hApartTags p hP)
          (hOwned.inUse p)) hSelf ?_
      intro k hK
      rw [hStarts, List.append_cons]
      exact List.mem_append_left _ hK

/- The tags of the classes have no infos. -/
theorem tagClass_sourced
    {todo : List (O × Nat)}
    (hBound : ∀ c, ∀ i ∈ ids c, i < querySize)
    (hOwned : Owned m tag tags)
    (hTagging : Tagging m ids ((o, i) :: todo) tag tags)
    (hSome : tagClass m i (tag o) tags = some (b, tags')) :
    Sourced m tag tags o more b tags' := by
  rcases hTagging with
    ⟨⟨before, hIds, hClass, _⟩, hDistinct, hEmpty⟩
  have hMem : i ∈ ids o := by
    rw [hIds, indicesIn_cons_self]
    exact List.mem_append_right _ List.mem_cons_self
  rcases tagClass_contents hOwned hClass hDistinct hEmpty
      (hBound o i hMem) hSome with ⟨_, hOthers, hSelf, _⟩
  refine ⟨fun p hP =>
    indicesAt_congr_content (hOthers p hP).2,
    fun k hK => ?_⟩
  rw [indicesAt_of_content hSelf] at hK
  exact absurd hK List.not_mem_nil

omit [DecidableEq O] in
theorem new_startTag_sourced
    (hOwned : Owned m tag tags)
    (hClass : ClassTags m ids tag tags)
    (hStarts : q.OfInstances h ids)
    (hPlain : Plain m tags (tag o)) :
    Sourced m tag tags o (· ∈ q.starts o)
      (tags.new m (.startTag (ids (h.classOf o)))).1
      (tags.new m (.startTag (ids (h.classOf o)))).2 := by
  have hSelf : q.starts o = ids (h.classOf o) := by
    rw [hStarts, if_pos (hClass.ids_eq_nil hPlain)]
  have hContent :
      (tags.new m
          (.startTag (ids (h.classOf o)))).2.contentAt m
          (tags.new m (.startTag (ids (h.classOf o)))).1 =
        some ⟨(q.starts o).map startInfo, true⟩ := by
    rw [TagMemory.contentAt, new_viewAt_self,
      startTag_content hSelf]
  exact .started (fun p _ => new_viewAt (hOwned.inUse p))
    hContent (fun _ hMem => hMem)

omit [DecidableEq O] in
theorem tagObjectOfTaggedClass_sourced
    (hOwned : Owned m tag tags)
    (hClass : ClassTags m ids tag tags)
    (hStarts : q.OfInstances h ids)
    (hSome :
      tagObjectOfTaggedClass m (tag (h.classOf o)) (tag o)
          tags =
        some (b, tags')) :
    Sourced m tag tags o (· ∈ q.starts o) b tags' := by
  unfold SizesTags.tagObjectOfTaggedClass at hSome
  rw [hClass.tagToClassTagPointer_eq hOwned] at hSome
  split at hSome
  · cases hSome
    exact .keep (fun _ => rfl)
  · simp only [Option.bind_eq_bind, Option.bind_some]
      at hSome
    split at hSome
    · next hZero =>
        have hPlain : Plain m tags (tag o) := by
          rw [hZero]
          exact plain_zero
        have hSourced :=
          new_startTag_sourced hOwned hClass hStarts hPlain
        cases hSome
        exact hSourced
    · cases hSome
      exact .keep (fun _ => rfl)

omit [DecidableEq O] in
theorem retagStartObjects_sourced
    (hOwned : Owned m tag tags)
    (hClass : ClassTags m ids tag tags)
    (hStarts : q.OfInstances h ids)
    (hSome :
      retagStartObjects m (tag (h.classOf o)) (tag o) tags =
        some (b, tags')) :
    Sourced m tag tags o (· ∈ q.starts o) b tags' := by
  unfold SizesTags.retagStartObjects at hSome
  rw [hClass.tagToClassTagPointer_eq hOwned] at hSome
  split at hSome
  · cases hSome
    exact .keep (fun _ => rfl)
  · simp only [Option.bind_eq_bind, Option.bind_some]
      at hSome
    split at hSome
    · next hNew =>
        have hPlain : Plain m tags (tag o) := by
          rw [hNew]
          exact plain_of_static (Or.inr (Or.inl rfl))
        have hSourced :=
          new_startTag_sourced hOwned hClass hStarts hPlain
        cases hSome
        exact ⟨hSourced.others, hSourced.self⟩
    · cases hSome
      exact .keep (fun _ => rfl)

end Creation

------------------------------------------------------------
-- Runs
------------------------------------------------------------

section Runs

variable {O : Type}
variable [Fintype O]
variable [DecidableEq O]
variable {q : Query O}
variable {m : TagAddresses}
variable {h : Heap O}
variable {action : Action O}
variable {P :
  Work O → List (Stage O) → (O → jlong) → TagMemory → Prop}
variable {tags tags' : TagMemory}

/-
  The steps that give indices of their own give an object
  its indices as a start object.
-/
structure Origins
    (q : Query O)
    (m : TagAddresses)
    (h : Heap O)
    (P :
      Work O → List (Stage O) → (O → jlong) → TagMemory →
        Prop) : Prop where
  createTag :
    ∀ {o i todo rest tag tags b tags'},
      P (.createTags ((o, i) :: todo)) rest tag tags →
      Owned m tag tags →
      createTagForObject m i (tag o) tags =
        some (b, tags') →
      Sourced m tag tags o (· ∈ q.starts o) b tags'
  tagClass :
    ∀ {o i todo rest tag tags b tags'},
      P (.tagClasses ((o, i) :: todo)) rest tag tags →
      Owned m tag tags →
      tagClass m i (tag o) tags = some (b, tags') →
      Sourced m tag tags o (· ∈ q.starts o) b tags'
  iterate :
    ∀ {callback : Iteration} {o todo rest tag tags b tags'},
      P (.iterate callback (o :: todo)) rest tag tags →
      Owned m tag tags →
      callback.run m (tag (h.classOf o)) (tag o) tags =
        some (b, tags') →
      Sourced m tag tags o (· ∈ q.starts o) b tags'

/- The references that the current traversal may report. -/
def Work.pending : Work O → List (Report O)
| .follow _ pending _ => pending
| .walk _ pending _ => pending
| _ => []

/- Those with a referrer are references of it. -/
def Work.Real
    (h : Heap O)
    (work : Work O) : Prop :=
  ∀ r ∈ work.pending, ∀ a, r.referrer = some a →
    r ∈ h.reportsOf a

omit [Fintype O] [DecidableEq O] in
theorem Work.Real.of_graph
    (r : Report O)
    {pending pending' : List (Report O)}
    (hReal :
      ∀ r ∈ pending, ∀ a, r.referrer = some a →
        r ∈ h.reportsOf a)
    (hPending :
      ∀ p ∈ pending', p ∈ pending ∨
        p ∈ h.graph.out r.referee) :
    ∀ p ∈ pending', ∀ a, p.referrer = some a →
      p ∈ h.reportsOf a := by
  intro p hMem a hA
  rcases hPending p hMem with hOld | hNew
  · exact hReal p hOld a hA
  · have hOwner :=
      ((h.mem_reportsOf_iff r.referee p).mp hNew).1
    rw [hOwner] at hA
    cases hA
    exact hNew

omit [Fintype O] in
/- A reported reference was pending. -/
theorem Work.Real.report
    {data : Tagged O jlong (Option TagMemory)}
    {r : Report O}
    {work : Work O}
    {next : Tagged O jlong (Option TagMemory) × Work O}
    (hReal : work.Real h)
    (hReport :
      SizesTags.report m h r data work = some next) :
    r ∈ work.pending ∧ next.2.Real h := by
  cases work with
  | createTags todo => cases hReport
  | tagClasses todo => cases hReport
  | iterate callback todo => cases hReport
  | follow callback pending visited =>
      simp only [SizesTags.report] at hReport
      split at hReport
      · next hMay =>
          cases hReport
          refine ⟨hMay.1, Work.Real.of_graph r hReal ?_⟩
          exact fun p => Worklist.pending_of_mem_report
      · cases hReport
  | walk todo pending visited =>
      simp only [SizesTags.report] at hReport
      split at hReport
      · next hMay =>
          cases hReport
          refine ⟨hMay.1, Work.Real.of_graph r hReal ?_⟩
          exact fun p => Worklist.pending_of_mem_report
      · cases hReport

omit [Fintype O] in
theorem Work.Real.call
    {data : Tagged O jlong (Option TagMemory)}
    {tag' : O → jlong}
    {work work' : Work O}
    (hReal : work.Real h)
    (hCalled :
      Called m h data.tag tags work tag' tags' work') :
    work'.Real h := by
  cases hCalled with
  | createTag _ => exact hReal
  | tagClass _ => exact hReal
  | iterate _ => exact hReal
  | skip _ => exact hReal
  | walk =>
      intro r hMem a hA
      have hOwner := ((h.mem_reportsOf_iff _ r).mp hMem).1
      rw [hOwner] at hA
      cases hA
      exact hMem

theorem Work.Real.begin
    {data : Tagged O jlong (Option TagMemory)}
    {order objects : List O}
    {stage : Stage O}
    {begun : Work O × List O}
    (hBegin :
      SizesTags.begin m h data order objects stage =
        some begun) :
    begun.1.Real h := by
  cases stage with
  | iterate callback =>
      simp only [SizesTags.begin] at hBegin
      split at hBegin
      · cases hBegin
        exact fun _ hMem => absurd hMem List.not_mem_nil
      · cases hBegin
  | follow callback =>
      cases hBegin
      intro r hMem a hA
      rw [((h.mem_rootReports_iff r).mp hMem).1] at hA
      cases hA
  | collect =>
      simp only [SizesTags.begin] at hBegin
      split at hBegin
      · cases hBegin
        exact fun _ hMem => absurd hMem List.not_mem_nil
      · cases hBegin
  | retag listed =>
      cases hBegin
      exact fun _ hMem => absurd hMem List.not_mem_nil
  | walk =>
      cases hBegin
      exact fun _ hMem => absurd hMem List.not_mem_nil

/- What such a run keeps besides its phase. -/
structure TracedAt
    (q : Query O)
    (m : TagAddresses)
    (h : Heap O)
    (s : State O)
    (tags : TagMemory) : Prop where
  traced : q.Traced m h s.data.tag tags
  real :
    ∀ work rest objects,
      s.point = .running work rest objects → work.Real h

theorem TracedAt.execute
    {s s' : State O}
    {command : Command O}
    (hOrigins : Origins q m h P)
    (hIn : InPhase m h P s tags)
    (hTraced : TracedAt q m h s tags)
    (hContinues : command.continues)
    (hStep : SizesTags.execute m s command = some s')
    (hNext : InPhase m h P s' tags') :
    TracedAt q m h s' tags' := by
  have hUser' := hNext.invariant.user
  have hOwned' := hNext.invariant.owned
  rcases hIn with ⟨hHeap, ⟨hUser, hOwned, _⟩, hPhase⟩
  rcases hPhase with ⟨work, rest, objects, hPoint, hHolds⟩
  rcases s with ⟨heap, data, point⟩
  dsimp only at hHeap hUser hOwned hPoint hHolds
  subst hHeap hPoint
  rcases hTraced with ⟨hTraced, hReal⟩
  have hReal := hReal work rest objects rfl
  cases step_of_execute hStep with
  | @call _ _ _ _ _ next hCall =>
      rcases next with ⟨⟨tag', user⟩, work'⟩
      have hCalled := called_of_call hUser hCall hUser'
      refine ⟨?_, fun _ _ _ hEq => ?_⟩
      · cases hCalled with
        | createTag hSome =>
            exact hTraced.given
              (hOrigins.createTag hHolds hOwned hSome)
        | tagClass hSome =>
            exact hTraced.given
              (hOrigins.tagClass hHolds hOwned hSome)
        | iterate hSome =>
            exact hTraced.given
              (hOrigins.iterate hHolds hOwned hSome)
        | walk => exact hTraced.sameTags rfl
        | skip _ => exact hTraced
      · cases hEq
        exact hReal.call hCalled
  | @report _ _ _ _ _ r next hReport =>
      rcases hReal.report hReport with ⟨hMem, hReal'⟩
      rcases next with ⟨⟨tag', user⟩, work'⟩
      have hReported := reported_of_report hUser hReport hUser'
      refine ⟨?_, fun _ _ _ hEq => ?_⟩
      · cases hReported with
        | getTags hSome =>
            exact hTraced.brought (hReal r hMem)
              (getTagsWithNewInfo_sourced hOwned
                (arguments_tag r) hSome hOwned')
        | visit hSome =>
            exact hTraced.brought (hReal r hMem)
              (visitReference_sourced hOwned
                (arguments_tag r) hSome hOwned')
        | spread hSome =>
            exact hTraced.brought (hReal r hMem)
              (spreadInfo_sourced hOwned (arguments_tag r)
                hSome hOwned')
      · cases hEq
        exact hReal'
  | begin hDone hBegin =>
      have hSame : tags = tags' :=
        Option.some.inj (hUser.symm.trans hUser')
      subst hSame
      refine ⟨hTraced, fun _ _ _ hEq => ?_⟩
      cases hEq
      exact Work.Real.begin hBegin
  | clean _ => exact absurd hContinues id

theorem TracedAt.run
    {s s' : State O}
    (hPhases : Phases m h action P)
    (hOrigins : Origins q m h P)
    (hCard : Fintype.card O < refCountSize)
    (commands : List (Command O))
    (hIn : InPhase m h P s tags)
    (hTraced : TracedAt q m h s tags)
    (hContinues : ∀ command ∈ commands, command.continues)
    (hRun : SizesTags.run m s commands = some s') :
    ∃ tags', InPhase m h P s' tags' ∧
      TracedAt q m h s' tags' := by
  induction commands generalizing s tags with
  | nil =>
      cases hRun
      exact ⟨tags, hIn, hTraced⟩
  | cons command commands ih =>
      unfold SizesTags.run at hRun
      rw [List.foldlM_cons] at hRun
      rcases Option.bind_eq_some_iff.mp hRun with
        ⟨t, hStep, hRest⟩
      have hFirst :=
        hContinues command List.mem_cons_self
      rcases hIn.execute hPhases hCard hFirst hStep with
        ⟨next, hNext⟩
      exact ih hNext
        (hTraced.execute hOrigins hIn hFirst hStep hNext)
        (fun c hMem =>
          hContinues c (List.mem_cons_of_mem _ hMem))
        hRest

theorem Uninterrupted.traced
    {s : State O}
    (hPhases : Phases m h action P)
    (hOrigins : Origins q m h P)
    (hCard : Fintype.card O < refCountSize)
    (hRun : Uninterrupted m h action s) :
    ∃ tags, InPhase m h P s tags ∧ TracedAt q m h s tags := by
  rcases hRun with ⟨s₀, commands, hReachable, hContinues, hRun⟩
  unfold SizesTags.run at hRun
  rw [List.foldlM_cons] at hRun
  rcases Option.bind_eq_some_iff.mp hRun with
    ⟨s₁, hStep, hRest⟩
  have hFirst : Uninterrupted m h action s₁ := by
    refine ⟨s₀, [], hReachable, fun _ hMem => ?_, ?_⟩
    · exact absurd hMem List.not_mem_nil
    · unfold SizesTags.run
      rw [List.foldlM_cons, hStep]
      rfl
  rcases hFirst.phase hPhases hCard with ⟨tags, hIn⟩
  rcases hReachable.invariant hCard with ⟨_, hInvariant⟩
  have hTraced : TracedAt q m h s₁ tags := by
    rcases s₀ with ⟨heap, data, point⟩
    cases point with
    | idle =>
        cases hStep
        have hZero : ∀ o, data.tag o = 0 := hInvariant.holds
        refine ⟨Query.Traced.start hZero, ?_⟩
        intro work rest objects hPoint
        cases hPoint
        cases action with
        | estimateRetainedSize listed =>
            exact fun _ hMem => absurd hMem List.not_mem_nil
        | getRetainedSizeByClasses listed =>
            exact fun _ hMem => absurd hMem List.not_mem_nil
        | getShallowAndRetainedSizeByClasses listed =>
            exact fun _ hMem => absurd hMem List.not_mem_nil
        | getShallowSizeByClasses listed =>
            exact fun _ hMem => absurd hMem List.not_mem_nil
    | running work rest objects => cases hStep
    | cleaning todo => cases hStep
  exact hTraced.run hPhases hOrigins hCard commands hIn
    hContinues hRest

end Runs

end SizesTags

end MemoryAgent
