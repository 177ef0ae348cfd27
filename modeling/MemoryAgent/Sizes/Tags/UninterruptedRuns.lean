import MemoryAgent.Sizes.Tags.FirstPass

/-
  Runs of one action that are not interrupted.  They go
  through the stages of the action one after another, and
  keep what each step of these keeps.

  Key definitions include:
    * `SizesTags.Uninterrupted`
    * `SizesTags.Phases`

  Main result:
    * `SizesTags.Uninterrupted.phase`
-/

------------------------------------------------------------
-- Runs
------------------------------------------------------------

namespace MemoryAgent

namespace SizesTags

open RecordStore

variable {O : Type}

/- The commands of a run that goes on. -/
def Command.continues : Command O → Prop
| .call => True
| .report _ => True
| .begin _ => True
| _ => False

instance :
    (command : Command O) → Decidable command.continues
| .call => isTrue trivial
| .report _ => isTrue trivial
| .begin _ => isTrue trivial
| .start _ _ => isFalse id
| .clean _ => isFalse id
| .finish => isFalse id

/- The step of a loop in which nothing is retagged. -/
def SameTags (tags tags' : TagMemory) : Prop :=
  tags'.store = tags.store

/- The callback of an iteration that only reads the tags. -/
def Iteration.Reads
    (m : TagAddresses)
    (callback : Iteration) : Prop :=
  ∀ {classTag a tags b tags'},
    callback.run m classTag a tags = some (b, tags') →
      b = a ∧ tags' = tags

theorem reads_of_map
    {α : Type}
    {x : Option α}
    {a b : jlong}
    {tags tags' : TagMemory}
    (hSome : x.map (fun _ => (a, tags)) = some (b, tags')) :
    b = a ∧ tags' = tags := by
  rcases Option.map_eq_some_iff.mp hSome with ⟨_, _, hEq⟩
  cases hEq
  exact ⟨rfl, rfl⟩

theorem reads_visitObject
    {m : TagAddresses} :
    Iteration.visitObject.Reads m :=
  reads_of_map

theorem reads_visitObjectForShallowAndRetainedSize
    {m : TagAddresses} :
    Iteration.visitObjectForShallowAndRetainedSize.Reads
      m :=
  reads_of_map

theorem reads_calculateShallowSize
    {m : TagAddresses} :
    Iteration.calculateShallowSize.Reads m :=
  reads_of_map

variable [Fintype O]
variable [DecidableEq O]

/-
  A run of the action on the heap, after any sequence of
  other runs, up to any step before `cleanHeap`.
-/
def Uninterrupted
    (m : TagAddresses)
    (h : Heap O)
    (action : Action O)
    (s : State O) : Prop :=
  ∃ s₀ commands, Reachable m s₀ ∧
    (∀ command ∈ commands, command.continues) ∧
    run m s₀ (.start h action :: commands) = some s

------------------------------------------------------------
-- Phases
------------------------------------------------------------

/- A property that each step of an action keeps. -/
structure Phases
    (m : TagAddresses)
    (h : Heap O)
    (action : Action O)
    (P :
      Work O → List (Stage O) → (O → jlong) → TagMemory →
        Prop) : Prop where
  start :
    ∀ {tag tags}, (∀ o, tag o = 0) →
      P action.first action.stages tag tags
  createTag :
    ∀ {o i todo rest tag tags b tags'},
      P (.createTags ((o, i) :: todo)) rest tag tags →
      Owned m tag tags →
      createTagForObject m i (tag o) tags =
        some (b, tags') →
      P (.createTags todo) rest (Function.update tag o b)
        tags'
  tagClass :
    ∀ {o i todo rest tag tags b tags'},
      P (.tagClasses ((o, i) :: todo)) rest tag tags →
      Owned m tag tags →
      tagClass m i (tag o) tags = some (b, tags') →
      P (.tagClasses todo) rest (Function.update tag o b)
        tags'
  iterate :
    ∀ {callback : Iteration} {o todo rest tag tags b tags'},
      P (.iterate callback (o :: todo)) rest tag tags →
      Owned m tag tags →
      callback.run m (tag (h.classOf o)) (tag o) tags =
        some (b, tags') →
      P (.iterate callback todo) rest
        (Function.update tag o b) tags'
  getTags :
    ∀ {o args pending visited pending' visited' rest tag
        tags b tags'},
      P (.follow .getTagsWithNewInfo pending visited) rest
        tag tags →
      Owned m tag tags →
      args.tag = tag o →
      (∀ a, args.referrerTag = some a → ∃ p, tag p = a) →
      getTagsWithNewInfo m args tags = some (b, tags') →
      Owned m (Function.update tag o b) tags' →
      P (.follow .getTagsWithNewInfo pending' visited') rest
        (Function.update tag o b) tags'
  visit :
    ∀ {o args pending visited pending' visited' rest tag
        tags b tags'},
      P (.follow .visitReference pending visited) rest tag
        tags →
      Owned m tag tags →
      args.tag = tag o →
      (∀ a, args.referrerTag = some a → ∃ p, tag p = a) →
      visitReference m args tags = some (b, tags') →
      Owned m (Function.update tag o b) tags' →
      P (.follow .visitReference pending' visited') rest
        (Function.update tag o b) tags'
  spread :
    ∀ {o args todo pending visited pending' visited' rest
        tag tags b tags'},
      P (.walk todo pending visited) rest tag tags →
      Owned m tag tags →
      args.tag = tag o →
      (∀ a, args.referrerTag = some a → ∃ p, tag p = a) →
      spreadInfo m args tags = some (b, tags') →
      Owned m (Function.update tag o b) tags' →
      P (.walk todo pending' visited') rest
        (Function.update tag o b) tags'
  walk :
    ∀ {o todo pending visited pending' visited' rest tag
        tags tags'},
      P (.walk (o :: todo) pending visited) rest tag tags →
      SameTags tags tags' →
      P (.walk todo pending' visited') rest tag tags'
  begin :
    ∀ {work stage rest data tags order objects next},
      P work (stage :: rest) data.tag tags →
      Owned m data.tag tags →
      work.isDone = true →
      begin m h data order objects stage = some next →
      P next.1 rest data.tag tags

variable {m : TagAddresses}
variable {h : Heap O}
variable {action : Action O}
variable {P :
  Work O → List (Stage O) → (O → jlong) → TagMemory → Prop}
variable {tags tags' : TagMemory}
variable {data : Tagged O jlong (Option TagMemory)}
variable {work : Work O}
variable {rest : List (Stage O)}
variable {next : Tagged O jlong (Option TagMemory) × Work O}

theorem Phases.call
    (hPhases : Phases m h action P)
    (hUser : data.user = some tags)
    (hOwned : Owned m data.tag tags)
    (hHolds : P work rest data.tag tags)
    (hCall : SizesTags.call m h data work = some next)
    (hNext : next.1.user = some tags') :
    P next.2 rest next.1.tag tags' := by
  rcases next with ⟨⟨tag', user⟩, work'⟩
  have hCalled :
      Called m h data.tag tags work tag' tags' work' :=
    called_of_call hUser hCall hNext
  cases hCalled with
  | createTag hSome =>
      exact hPhases.createTag hHolds hOwned hSome
  | tagClass hSome =>
      exact hPhases.tagClass hHolds hOwned hSome
  | iterate hSome => exact hPhases.iterate hHolds hOwned hSome
  | walk => exact hPhases.walk hHolds rfl
  | skip _ => exact hPhases.walk hHolds rfl

theorem Phases.report
    {r : Report O}
    (hPhases : Phases m h action P)
    (hUser : data.user = some tags)
    (hOwned : Owned m data.tag tags)
    (hHolds : P work rest data.tag tags)
    (hReport :
      SizesTags.report m h r data work = some next)
    (hNext : next.1.user = some tags')
    (hOwned' : Owned m next.1.tag tags') :
    P next.2 rest next.1.tag tags' := by
  rcases next with ⟨⟨tag', user⟩, work'⟩
  have hReported :
      Reported m (h.arguments r data) data.tag tags r.referee
        work tag' tags' work' :=
    reported_of_report hUser hReport hNext
  cases hReported with
  | getTags hSome =>
      exact hPhases.getTags hHolds hOwned (arguments_tag r)
        (exists_referrer r) hSome hOwned'
  | visit hSome =>
      exact hPhases.visit hHolds hOwned (arguments_tag r)
        (exists_referrer r) hSome hOwned'
  | spread hSome =>
      exact hPhases.spread hHolds hOwned (arguments_tag r)
        (exists_referrer r) hSome hOwned'

/- Where such a run is, and what holds there. -/
structure InPhase
    (m : TagAddresses)
    (h : Heap O)
    (P :
      Work O → List (Stage O) → (O → jlong) → TagMemory →
        Prop)
    (s : State O)
    (tags : TagMemory) : Prop where
  heap : s.heap = h
  invariant :
    Invariant m s.data
      (fun tag tags => PointInvariant m tag tags s.point)
      tags
  phase :
    ∃ work rest objects,
      s.point = .running work rest objects ∧
        P work rest s.data.tag tags

theorem InPhase.execute
    {s s' : State O}
    {command : Command O}
    (hPhases : Phases m h action P)
    (hCard : Fintype.card O < refCountSize)
    (hIn : InPhase m h P s tags)
    (hContinues : command.continues)
    (hStep : SizesTags.execute m s command = some s') :
    ∃ tags', InPhase m h P s' tags' := by
  rcases hIn.invariant.execute hCard hStep with
    ⟨tags', hInvariant⟩
  rcases hIn with ⟨hHeap, ⟨hUser, hOwned, _⟩, hPhase⟩
  rcases hPhase with ⟨work, rest, objects, hPoint, hHolds⟩
  rcases s with ⟨heap, data, point⟩
  dsimp only at hHeap hUser hOwned hPoint hHolds
  subst hHeap hPoint
  cases step_of_execute hStep with
  | call hCall =>
      exact ⟨tags', rfl, hInvariant, _, _, _, rfl,
        hPhases.call hUser hOwned hHolds hCall
          hInvariant.user⟩
  | report hReport =>
      exact ⟨tags', rfl, hInvariant, _, _, _, rfl,
        hPhases.report hUser hOwned hHolds hReport
          hInvariant.user hInvariant.owned⟩
  | begin hDone hBegin =>
      have hSame : tags = tags' :=
        Option.some.inj (hUser.symm.trans hInvariant.user)
      subst hSame
      exact ⟨tags, rfl, hInvariant, _, _, _, rfl,
        hPhases.begin hHolds hOwned hDone hBegin⟩
  | clean _ => exact absurd hContinues id

theorem InPhase.run
    {s s' : State O}
    (hPhases : Phases m h action P)
    (hCard : Fintype.card O < refCountSize)
    (commands : List (Command O))
    (hIn : InPhase m h P s tags)
    (hContinues : ∀ command ∈ commands, command.continues)
    (hRun : SizesTags.run m s commands = some s') :
    ∃ tags', InPhase m h P s' tags' := by
  induction commands generalizing s tags with
  | nil =>
      cases hRun
      exact ⟨tags, hIn⟩
  | cons command commands ih =>
      unfold SizesTags.run at hRun
      rw [List.foldlM_cons] at hRun
      rcases Option.bind_eq_some_iff.mp hRun with
        ⟨t, hStep, hRest⟩
      rcases hIn.execute hPhases hCard
          (hContinues command List.mem_cons_self) hStep with
        ⟨next, hNext⟩
      exact ih hNext
        (fun c hMem =>
          hContinues c (List.mem_cons_of_mem _ hMem))
        hRest

theorem Uninterrupted.phase
    {s : State O}
    (hPhases : Phases m h action P)
    (hCard : Fintype.card O < refCountSize)
    (hRun : Uninterrupted m h action s) :
    ∃ tags, InPhase m h P s tags := by
  rcases hRun with ⟨s₀, commands, hReachable, hContinues, hRun⟩
  unfold SizesTags.run at hRun
  rw [List.foldlM_cons] at hRun
  rcases Option.bind_eq_some_iff.mp hRun with
    ⟨s₁, hStep, hRest⟩
  rcases hReachable.invariant hCard with ⟨tags, hInvariant⟩
  rcases hInvariant.execute hCard hStep with
    ⟨next, hNext⟩
  have hIn : InPhase m h P s₁ next := by
    rcases s₀ with ⟨heap, data, point⟩
    cases point with
    | idle =>
        cases hStep
        have hZero : ∀ o, data.tag o = 0 := hInvariant.holds
        exact ⟨rfl, hNext, _, _, _, rfl,
          hPhases.start hZero⟩
    | running work rest objects => cases hStep
    | cleaning todo => cases hStep
  exact hIn.run hPhases hCard commands hContinues hRest

/- The order in which an iteration may begin. -/
theorem order_of_begin
    {s s' : State O}
    {callback : Iteration}
    {collected order : List O}
    (hPoint :
      s.point =
        .running work (.iterate callback :: rest) collected)
    (hStep :
      SizesTags.execute m s (.begin order) = some s') :
    work.isDone = true ∧ order.Nodup ∧
      ∀ o, o ∈ order ↔
        callback.passes s.heap s.data.tag o = true := by
  rcases begin_of_execute hPoint hStep with
    ⟨hDone, _, hBegin, _⟩
  unfold SizesTags.begin at hBegin
  dsimp only at hBegin
  split at hBegin
  · next hOrder => exact ⟨hDone, hOrder⟩
  · cases hBegin

end SizesTags

end MemoryAgent
