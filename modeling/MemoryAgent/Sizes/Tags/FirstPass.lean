import MemoryAgent.Sizes.Tags.Effects

/-
  The part of a run up to the end of the first traversal:
  what the steps of that part keep holds while it lasts.

  Key definitions include:
    * `SizesTags.Ordered`
    * `SizesTags.Work.isEarly`
    * `SizesTags.EarlyStable`
    * `SizesTags.WhileEarly`

  Main results:
    * `SizesTags.WhileEarly.execute`
-/

------------------------------------------------------------
-- Early Stages
------------------------------------------------------------

namespace MemoryAgent

namespace SizesTags

open RecordStore TagMemory

section Stages

variable {O : Type}

/-
  Of the stages, `tagObjectOfTaggedClass` alone comes before
  the search for objects with new infos.
-/
def Ordered : List (Stage O) → Prop
| [] => True
| stage :: rest =>
    (stage = .iterate .tagObjectOfTaggedClass ↔
      .follow .getTagsWithNewInfo ∈ rest) ∧ Ordered rest

/- The stages that only come before or with the search. -/
def Work.isEarly : Work O → Prop
| .tagClasses _ => True
| .iterate callback _ => callback = .tagObjectOfTaggedClass
| .follow callback _ _ => callback = .getTagsWithNewInfo
| _ => False

/- The stages that may come before the search. -/
def Work.isQuiet : Work O → Prop
| .createTags _ => True
| .tagClasses _ => True
| .iterate callback _ => callback = .tagObjectOfTaggedClass
| _ => False

/- The search is going on or still to come. -/
def Early
    (work : Work O)
    (rest : List (Stage O)) : Prop :=
  work.isEarly ∨ .follow .getTagsWithNewInfo ∈ rest

theorem ordered_stages
    (action : Action O) :
    Ordered action.stages := by
  cases action with
  | estimateRetainedSize objects =>
      simp [Action.stages, Action.tagHeap, Ordered]
  | getRetainedSizeByClasses classes =>
      simp [Action.stages, Action.tagHeap, Ordered]
  | getShallowAndRetainedSizeByClasses classes =>
      simp [Action.stages, Action.tagHeap, Ordered]
  | getShallowSizeByClasses classes =>
      simp [Action.stages, Ordered]

theorem first_isQuiet
    (action : Action O) :
    action.first.isQuiet := by
  cases action with
  | estimateRetainedSize objects => trivial
  | getRetainedSizeByClasses classes => trivial
  | getShallowAndRetainedSizeByClasses classes => trivial
  | getShallowSizeByClasses classes => trivial

end Stages

------------------------------------------------------------
-- Steps
------------------------------------------------------------

section Steps

variable {O : Type}
variable [DecidableEq O]
variable {m : TagAddresses}
variable {tags tags' : TagMemory}
variable {data : Tagged O jlong (Option TagMemory)}
variable {h : Heap O}
variable {o : O}

/- A step that tags an object and still has its memory. -/
theorem setTag_some
    {f : TagMemory → Option (jlong × TagMemory)}
    (hUser : data.user = some tags)
    (hNext : (setTag o f data).user = some tags') :
    ∃ b, f tags = some (b, tags') ∧
      (setTag o f data).tag =
        Function.update data.tag o b := by
  unfold SizesTags.setTag at hNext ⊢
  rw [hUser, Option.bind_some] at hNext ⊢
  cases hF : f tags with
  | none =>
      rw [hF] at hNext
      cases hNext
  | some next =>
      rw [hF] at hNext
      cases hNext
      exact ⟨next.1, rfl, rfl⟩

theorem invoke_some
    {f :
      ReferenceArguments jlong → TagMemory →
        Option (jlong × TagMemory)}
    {r : Report O}
    (hUser : data.user = some tags)
    (hNext :
      (h.invoke (referenceCallback f) r data).1.user =
        some tags') :
    ∃ b,
      f (h.arguments r data) tags = some (b, tags') ∧
      (h.invoke (referenceCallback f) r data).1.tag =
        Function.update data.tag r.referee b := by
  rw [Heap.invoke_user] at hNext
  rw [Heap.invoke_tag]
  unfold referenceCallback at hNext ⊢
  rw [hUser, Option.bind_some] at hNext ⊢
  cases hF : f (h.arguments r data) tags with
  | none =>
      rw [hF] at hNext
      cases hNext
  | some next =>
      rw [hF] at hNext
      cases hNext
      exact ⟨next.1, rfl, rfl⟩

/-
  The calls that leave a memory: what they do to the tags
  and to the work.
-/
inductive Called
    (m : TagAddresses)
    (h : Heap O)
    (tag : O → jlong)
    (tags : TagMemory) :
    Work O → (O → jlong) → TagMemory → Work O → Prop
  | createTag
      {o : O}
      {i : Nat}
      {todo : List (O × Nat)}
      {b : jlong}
      {tags' : TagMemory}
      (hSome :
        createTagForObject m i (tag o) tags =
          some (b, tags')) :
      Called m h tag tags (.createTags ((o, i) :: todo))
        (Function.update tag o b) tags' (.createTags todo)
  | tagClass
      {o : O}
      {i : Nat}
      {todo : List (O × Nat)}
      {b : jlong}
      {tags' : TagMemory}
      (hSome :
        SizesTags.tagClass m i (tag o) tags =
          some (b, tags')) :
      Called m h tag tags (.tagClasses ((o, i) :: todo))
        (Function.update tag o b) tags' (.tagClasses todo)
  | iterate
      {callback : Iteration}
      {o : O}
      {todo : List O}
      {b : jlong}
      {tags' : TagMemory}
      (hSome :
        callback.run m (tag (h.classOf o)) (tag o) tags =
          some (b, tags')) :
      Called m h tag tags (.iterate callback (o :: todo))
        (Function.update tag o b) tags'
        (.iterate callback todo)
  | walk
      {o : O}
      {todo visited : List O} :
      Called m h tag tags (.walk (o :: todo) [] visited)
        tag (tags.eraseNewInfo (tag o))
        (.walk todo (h.reportsOf o) [o])
  | skip
      {o : O}
      {todo visited : List O}
      (hNot : tag o ∉ tags.tagsWithNewInfo) :
      Called m h tag tags (.walk (o :: todo) [] visited)
        tag tags (.walk todo [] visited)

theorem called_of_call
    {work work' : Work O}
    {data' : Tagged O jlong (Option TagMemory)}
    (hUser : data.user = some tags)
    (hCall : SizesTags.call m h data work = some (data', work'))
    (hNext : data'.user = some tags') :
    Called m h data.tag tags work data'.tag tags' work' := by
  cases work with
  | createTags todo =>
      cases todo with
      | nil => cases hCall
      | cons p todo =>
          cases hCall
          rcases setTag_some hUser hNext with
            ⟨b, hSome, hTag⟩
          rw [hTag]
          exact .createTag hSome
  | tagClasses todo =>
      cases todo with
      | nil => cases hCall
      | cons p todo =>
          cases hCall
          rcases setTag_some hUser hNext with
            ⟨b, hSome, hTag⟩
          rw [hTag]
          exact .tagClass hSome
  | iterate callback todo =>
      cases todo with
      | nil => cases hCall
      | cons o todo =>
          cases hCall
          rcases setTag_some hUser hNext with
            ⟨b, hSome, hTag⟩
          rw [hTag]
          exact .iterate hSome
  | follow callback pending visited => cases hCall
  | walk todo pending visited =>
      cases todo with
      | nil => cases hCall
      | cons o todo =>
          cases pending with
          | cons r pending => cases hCall
          | nil =>
              unfold SizesTags.call at hCall
              rw [hUser] at hCall
              dsimp only at hCall
              split at hCall
              · cases hCall
                cases hNext
                exact .walk
              · next hNot =>
                  cases hCall
                  rw [hUser] at hNext
                  cases hNext
                  exact .skip hNot

/- The reports that leave a memory. -/
inductive Reported
    (m : TagAddresses)
    (args : ReferenceArguments jlong)
    (tag : O → jlong)
    (tags : TagMemory)
    (referee : O) :
    Work O → (O → jlong) → TagMemory → Work O → Prop
  | getTags
      {pending pending' : List (Report O)}
      {visited visited' : List O}
      {b : jlong}
      {tags' : TagMemory}
      (hSome :
        SizesTags.getTagsWithNewInfo m args tags =
          some (b, tags')) :
      Reported m args tag tags referee
        (.follow .getTagsWithNewInfo pending visited)
        (Function.update tag referee b) tags'
        (.follow .getTagsWithNewInfo pending' visited')
  | visit
      {pending pending' : List (Report O)}
      {visited visited' : List O}
      {b : jlong}
      {tags' : TagMemory}
      (hSome :
        SizesTags.visitReference m args tags =
          some (b, tags')) :
      Reported m args tag tags referee
        (.follow .visitReference pending visited)
        (Function.update tag referee b) tags'
        (.follow .visitReference pending' visited')
  | spread
      {todo : List O}
      {pending pending' : List (Report O)}
      {visited visited' : List O}
      {b : jlong}
      {tags' : TagMemory}
      (hSome :
        SizesTags.spreadInfo m args tags =
          some (b, tags')) :
      Reported m args tag tags referee
        (.walk todo pending visited)
        (Function.update tag referee b) tags'
        (.walk todo pending' visited')

theorem reported_of_report
    {r : Report O}
    {work work' : Work O}
    {data' : Tagged O jlong (Option TagMemory)}
    (hUser : data.user = some tags)
    (hReport :
      SizesTags.report m h r data work = some (data', work'))
    (hNext : data'.user = some tags') :
    Reported m (h.arguments r data) data.tag tags r.referee
      work data'.tag tags' work' := by
  cases work with
  | createTags todo => cases hReport
  | tagClasses todo => cases hReport
  | iterate callback todo => cases hReport
  | follow callback pending visited =>
      simp only [SizesTags.report] at hReport
      split at hReport
      · cases hReport
        rw [Worklist.report_data] at hNext ⊢
        cases callback with
        | getTagsWithNewInfo =>
            rcases invoke_some hUser hNext with
              ⟨b, hSome, hTag⟩
            simp only [Traversal.callback, hTag]
            exact .getTags hSome
        | visitReference =>
            rcases invoke_some hUser hNext with
              ⟨b, hSome, hTag⟩
            simp only [Traversal.callback, hTag]
            exact .visit hSome
      · cases hReport
  | walk todo pending visited =>
      simp only [SizesTags.report] at hReport
      split at hReport
      · cases hReport
        rw [Worklist.report_data] at hNext ⊢
        rcases invoke_some hUser hNext with ⟨b, hSome, hTag⟩
        rw [hTag]
        exact .spread hSome
      · cases hReport

variable [Fintype O]

/- What all steps up to the end of the search keep. -/
structure EarlyStable
    (m : TagAddresses)
    (P : (O → jlong) → TagMemory → Prop) : Prop where
  createTagForObject :
    ∀ {tag tags o i b tags'}, Owned m tag tags →
      P tag tags →
      createTagForObject m i (tag o) tags =
        some (b, tags') →
      P (Function.update tag o b) tags'
  tagClass :
    ∀ {tag tags o i b tags'}, Owned m tag tags →
      P tag tags →
      tagClass m i (tag o) tags = some (b, tags') →
      P (Function.update tag o b) tags'
  tagObjectOfTaggedClass :
    ∀ {tag tags o classTag b tags'}, Owned m tag tags →
      P tag tags →
      tagObjectOfTaggedClass m classTag (tag o) tags =
        some (b, tags') →
      P (Function.update tag o b) tags'
  getTagsWithNewInfo :
    ∀ {tag tags o args b tags'}, Owned m tag tags →
      P tag tags →
      args.tag = tag o →
      (∀ a, args.referrerTag = some a → ∃ p, tag p = a) →
      getTagsWithNewInfo m args tags = some (b, tags') →
      P (Function.update tag o b) tags'

/- What holds as long as the search has not ended. -/
def WhileEarly
    (P : (O → jlong) → TagMemory → Prop)
    (tag : O → jlong)
    (tags : TagMemory) : Point O → Prop
| .running work rest _ =>
    Ordered rest ∧
      (.follow .getTagsWithNewInfo ∈ rest → work.isQuiet) ∧
      (Early work rest → P tag tags)
| _ => True

variable {P : (O → jlong) → TagMemory → Prop}
variable {work : Work O}
variable {rest : List (Stage O)}
variable {objects objects' : List O}
variable {next : Tagged O jlong (Option TagMemory) × Work O}

theorem WhileEarly.call
    (hStable : EarlyStable m P)
    (hUser : data.user = some tags)
    (hOwned : Owned m data.tag tags)
    (hEarly :
      WhileEarly P data.tag tags
        (.running work rest objects))
    (hCall : SizesTags.call m h data work = some next)
    (hNext : next.1.user = some tags') :
    WhileEarly P next.1.tag tags'
      (.running next.2 rest objects') := by
  rcases hEarly with ⟨hOrdered, hQuiet, hHolds⟩
  rcases next with ⟨⟨tag', user⟩, work'⟩
  have hCalled :
      Called m h data.tag tags work tag' tags' work' :=
    called_of_call hUser hCall hNext
  have hNotEarly
      (hWork : ¬ work.isQuiet)
      (hNot : ¬ work.isEarly) :
      ¬ Early work rest := by
    intro hStill
    rcases hStill with hEarlyWork | hRest
    · exact hNot hEarlyWork
    · exact hWork (hQuiet hRest)
  cases hCalled with
  | createTag hSome =>
      refine ⟨hOrdered, fun _ => trivial, ?_⟩
      intro hStill
      exact hStable.createTagForObject hOwned
        (hHolds hStill) hSome
  | tagClass hSome =>
      refine ⟨hOrdered, fun _ => trivial, ?_⟩
      intro _
      exact hStable.tagClass hOwned
        (hHolds (Or.inl trivial)) hSome
  | @iterate callback _ _ _ _ hSome =>
      refine ⟨hOrdered, hQuiet, ?_⟩
      intro hStill
      have hCallback : callback = .tagObjectOfTaggedClass := by
        rcases hStill with hWork | hRest
        · exact hWork
        · exact hQuiet hRest
      rw [hCallback] at hSome
      exact hStable.tagObjectOfTaggedClass hOwned
        (hHolds hStill) hSome
  | walk =>
      exact ⟨hOrdered, fun hMem => hQuiet hMem,
        fun hStill => absurd hStill (hNotEarly id id)⟩
  | skip _ =>
      exact ⟨hOrdered, fun hMem => hQuiet hMem,
        fun hStill => absurd hStill (hNotEarly id id)⟩

theorem WhileEarly.report
    {r : Report O}
    (hStable : EarlyStable m P)
    (hUser : data.user = some tags)
    (hOwned : Owned m data.tag tags)
    (hEarly :
      WhileEarly P data.tag tags
        (.running work rest objects))
    (hReport :
      SizesTags.report m h r data work = some next)
    (hNext : next.1.user = some tags') :
    WhileEarly P next.1.tag tags'
      (.running next.2 rest objects') := by
  rcases hEarly with ⟨hOrdered, hQuiet, hHolds⟩
  rcases next with ⟨⟨tag', user⟩, work'⟩
  have hReported :
      Reported m (h.arguments r data) data.tag tags r.referee
        work tag' tags' work' :=
    reported_of_report hUser hReport hNext
  -- No report is quiet, so that the search is not to come.
  cases hReported with
  | getTags hSome =>
      have hKept :=
        hStable.getTagsWithNewInfo hOwned (hHolds (Or.inl rfl))
          (arguments_tag r) (exists_referrer r) hSome
      exact ⟨hOrdered, fun hMem => hQuiet hMem, fun _ => hKept⟩
  | visit hSome =>
      refine ⟨hOrdered, fun hMem => hQuiet hMem, ?_⟩
      rintro (hWork | hRest)
      · cases hWork
      · exact absurd hRest (fun hMem => hQuiet hMem)
  | spread hSome =>
      refine ⟨hOrdered, fun hMem => hQuiet hMem, ?_⟩
      rintro (hWork | hRest)
      · exact absurd hWork id
      · exact absurd hRest (fun hMem => hQuiet hMem)

/- The next stage begins. -/
theorem WhileEarly.begin
    {order : List O}
    {stage : Stage O}
    {begun : Work O × List O}
    (hEarly :
      WhileEarly P data.tag tags
        (.running work (stage :: rest) objects))
    (hBegin :
      SizesTags.begin m h data order objects stage =
        some begun) :
    WhileEarly P data.tag tags
      (.running begun.1 rest begun.2) := by
  rcases hEarly with ⟨⟨hStage, hOrdered⟩, _, hHolds⟩
  have hSearch :
      .follow .getTagsWithNewInfo ∈ rest ∨
          stage = .follow .getTagsWithNewInfo →
        P data.tag tags := by
    intro hCases
    apply hHolds
    apply Or.inr
    rcases hCases with hMem | hEq
    · exact List.mem_cons_of_mem stage hMem
    · rw [hEq]
      exact List.mem_cons_self
  have hLate :
      stage ≠ .iterate .tagObjectOfTaggedClass →
        .follow .getTagsWithNewInfo ∉ rest :=
    fun hNe hMem => hNe (hStage.mpr hMem)
  cases stage with
  | iterate callback =>
      simp only [SizesTags.begin] at hBegin
      split at hBegin
      · cases hBegin
        have hSame :
            callback = .tagObjectOfTaggedClass ↔
              .follow .getTagsWithNewInfo ∈ rest := by
          rw [← hStage]
          exact ⟨fun hEq => by rw [hEq],
            fun hEq => Stage.iterate.inj hEq⟩
        refine ⟨hOrdered, hSame.mpr, ?_⟩
        intro hStill
        apply hSearch
        rcases hStill with hWork | hRest
        · exact Or.inl (hSame.mp hWork)
        · exact Or.inl hRest
      · cases hBegin
  | follow callback =>
      cases hBegin
      have hNot := hLate (by simp)
      refine ⟨hOrdered, fun hMem => absurd hMem hNot, ?_⟩
      intro hStill
      apply hSearch
      rcases hStill with hWork | hRest
      · have hCallback :
            callback = .getTagsWithNewInfo := hWork
        rw [hCallback]
        exact Or.inr rfl
      · exact Or.inl hRest
  | collect =>
      simp only [SizesTags.begin] at hBegin
      split at hBegin
      · cases hBegin
        have hNot := hLate (by simp)
        refine ⟨hOrdered,
          fun hMem => absurd hMem hNot, ?_⟩
        intro hStill
        rcases hStill with hWork | hRest
        · exact absurd hWork id
        · exact absurd hRest hNot
      · cases hBegin
  | retag listed =>
      cases hBegin
      have hNot := hLate (by simp)
      refine ⟨hOrdered, fun hMem => absurd hMem hNot, ?_⟩
      intro hStill
      rcases hStill with hWork | hRest
      · exact absurd hWork id
      · exact absurd hRest hNot
  | walk =>
      cases hBegin
      have hNot := hLate (by simp)
      refine ⟨hOrdered, fun hMem => absurd hMem hNot, ?_⟩
      intro hStill
      rcases hStill with hWork | hRest
      · exact absurd hWork id
      · exact absurd hRest hNot

/- A step keeps what the steps of the first part keep. -/
theorem WhileEarly.execute
    {s s' : State O}
    {command : Command O}
    (hStable : EarlyStable m P)
    (hStart : s.point = .idle → P s.data.tag tags)
    (hUser : s.data.user = some tags)
    (hOwned : Owned m s.data.tag tags)
    (hEarly : WhileEarly P s.data.tag tags s.point)
    (hStep : SizesTags.execute m s command = some s')
    (hNext : s'.data.user = some tags') :
    WhileEarly P s'.data.tag tags' s'.point := by
  cases step_of_execute hStep with
  | start before heap data action =>
      have hSame : tags = tags' :=
        Option.some.inj (hUser.symm.trans hNext)
      subst hSame
      exact ⟨ordered_stages action,
        fun _ => first_isQuiet action, fun _ => hStart rfl⟩
  | call hCall =>
      exact WhileEarly.call hStable hUser hOwned hEarly hCall
        hNext
  | clear h data o todo => trivial
  | report hReport =>
      exact WhileEarly.report hStable hUser hOwned hEarly
        hReport hNext
  | begin _ hBegin =>
      have hSame : tags = tags' :=
        Option.some.inj (hUser.symm.trans hNext)
      subst hSame
      exact WhileEarly.begin hEarly hBegin
  | clean _ => trivial
  | finish h data => trivial

end Steps

end SizesTags

end MemoryAgent
