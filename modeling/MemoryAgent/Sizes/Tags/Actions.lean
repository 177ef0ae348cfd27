import MemoryAgent.Sizes.Tags.Ownership

/-
  Sequences of size actions as the steps of a machine.  An
  action goes through its stages, each of them a loop, an
  iteration or a traversal whose order is chosen by the
  commands; `cleanHeap` may begin after any step.

  Key definitions include:
    * `SizesTags.Action`
    * `SizesTags.State`
    * `SizesTags.execute`
    * `SizesTags.Reachable`

  Main results:
    * `SizesTags.Invariant.execute`
    * `SizesTags.Reachable.invariant`
    * `SizesTags.reachable_tags`
-/

------------------------------------------------------------
-- Actions
------------------------------------------------------------

namespace MemoryAgent

namespace SizesTags

open RecordStore

/- The callbacks of `IterateThroughHeap`. -/
inductive Iteration where
  | tagObjectOfTaggedClass
  | retagStartObjects
  | visitObject
  | visitObjectForShallowAndRetainedSize
  | calculateShallowSize
deriving DecidableEq, Repr

/- The callbacks of `FollowReferences` from the roots. -/
inductive Traversal where
  | getTagsWithNewInfo
  | visitReference
deriving DecidableEq, Repr

/-
  What an action does after it has tagged its arguments:
  `collect` asks for the objects with the tag
  `TagWithNewInfo`, `retag` gives the listed ones among them
  new tags, and `walk` is `walkHeapFromObjects`.
-/
inductive Stage (O : Type) where
  | iterate (callback : Iteration)
  | follow (callback : Traversal)
  | collect
  | retag (objects : List (O × Nat))
  | walk
deriving DecidableEq, Repr

/-
  A stage that has begun, with what is left of it.  The
  pending references and the visited objects belong to the
  current traversal.
-/
inductive Work (O : Type) where
  | createTags (todo : List (O × Nat))
  | tagClasses (todo : List (O × Nat))
  | iterate (callback : Iteration) (todo : List O)
  | follow
      (callback : Traversal)
      (pending : List (Report O))
      (visited : List O)
  | walk
      (todo : List O)
      (pending : List (Report O))
      (visited : List O)
deriving DecidableEq, Repr

def Work.isDone {O : Type} : Work O → Bool
| .createTags todo => todo.isEmpty
| .tagClasses todo => todo.isEmpty
| .iterate _ todo => todo.isEmpty
| .follow _ pending _ => pending.isEmpty
| .walk todo pending _ => todo.isEmpty && pending.isEmpty

/-
  The actions and their arguments: the listed objects, or
  each class object that `tagClassAndItsInheritors` finds
  with the index of the class it is found for.
-/
inductive Action (O : Type) where
  | estimateRetainedSize (objects : List O)
  | getRetainedSizeByClasses (classes : List (O × Nat))
  | getShallowAndRetainedSizeByClasses
      (classes : List (O × Nat))
  | getShallowSizeByClasses (classes : List (O × Nat))
deriving DecidableEq, Repr

namespace Action

variable {O : Type}

/- How an action begins. -/
def first : Action O → Work O
| .estimateRetainedSize objects =>
    .createTags objects.zipIdx
| .getRetainedSizeByClasses classes => .tagClasses classes
| .getShallowAndRetainedSizeByClasses classes =>
    .tagClasses classes
| .getShallowSizeByClasses classes => .tagClasses classes

/- `tagHeap`, with the stage that retags start objects. -/
def tagHeap (retag : Stage O) : List (Stage O) :=
  [.follow .getTagsWithNewInfo, .collect, retag,
    .follow .visitReference, .walk]

def stages : Action O → List (Stage O)
| .estimateRetainedSize objects =>
    tagHeap (.retag objects.zipIdx) ++
      [.iterate .visitObject]
| .getRetainedSizeByClasses _ =>
    .iterate .tagObjectOfTaggedClass ::
      tagHeap (.iterate .retagStartObjects) ++
        [.iterate .visitObject]
| .getShallowAndRetainedSizeByClasses _ =>
    .iterate .tagObjectOfTaggedClass ::
      tagHeap (.iterate .retagStartObjects) ++
        [.iterate .visitObjectForShallowAndRetainedSize]
| .getShallowSizeByClasses _ =>
    [.iterate .calculateShallowSize]

end Action

------------------------------------------------------------
-- States
------------------------------------------------------------

/-
  Between two runs, in a run that still has stages and has
  collected `objects`, or in `cleanHeap`.
-/
inductive Point (O : Type) where
  | idle
  | running
      (work : Work O)
      (rest : List (Stage O))
      (objects : List O)
  | cleaning (todo : List O)
deriving DecidableEq, Repr

/- The memory is absent after a deleted tag was used. -/
structure State (O : Type) where
  heap : Heap O
  data : Tagged O jlong (Option TagMemory)
  point : Point O

def State.initial {O : Type} (heap : Heap O) : State O where
  heap := heap
  data := ⟨fun _ => 0, some .initial⟩
  point := .idle

/-
  What happens next: a run of an action on a heap begins;
  the next call of a loop or an iteration; a reference is
  reported; the next stage or `cleanHeap` begins, with the
  order of its iteration; a run ends.
-/
inductive Command (O : Type) where
  | start (heap : Heap O) (action : Action O)
  | call
  | report (r : Report O)
  | begin (order : List O)
  | clean (order : List O)
  | finish

section Machine

variable {O : Type}
variable [DecidableEq O]

/- Give `o` the tag that a function computes. -/
def setTag
    (o : O)
    (f : TagMemory → Option (jlong × TagMemory))
    (data : Tagged O jlong (Option TagMemory)) :
    Tagged O jlong (Option TagMemory) :=
  match data.user.bind f with
  | none => ⟨data.tag, none⟩
  | some (b, tags) =>
      ⟨Function.update data.tag o b, some tags⟩

/- The objects that the heap filter lets through. -/
def Iteration.passes
    (callback : Iteration)
    (h : Heap O)
    (tag : O → jlong)
    (o : O) : Bool :=
  match callback with
  | .tagObjectOfTaggedClass => true
  | .calculateShallowSize => decide (tag (h.classOf o) ≠ 0)
  | _ => decide (tag o ≠ 0)

/-
  What the callback does to the tag.  The sums that some of
  them build are not part of the state.
-/
def Iteration.run
    (callback : Iteration)
    (m : TagAddresses)
    (classTag tag : jlong)
    (tags : TagMemory) : Option (jlong × TagMemory) :=
  match callback with
  | .tagObjectOfTaggedClass =>
      SizesTags.tagObjectOfTaggedClass m classTag tag tags
  | .retagStartObjects =>
      SizesTags.retagStartObjects m classTag tag tags
  | .visitObject =>
      (visitedInfos m tag tags).map (fun _ => (tag, tags))
  | .visitObjectForShallowAndRetainedSize =>
      (visitedInfos m tag tags).map (fun _ => (tag, tags))
  | .calculateShallowSize =>
      (tags.tagToClassTagPointer m classTag).map
        (fun _ => (tag, tags))

def Traversal.callback
    (m : TagAddresses) :
    Traversal →
      HeapReferenceCallback jlong (Option TagMemory)
| .getTagsWithNewInfo =>
    referenceCallback (SizesTags.getTagsWithNewInfo m)
| .visitReference =>
    referenceCallback (SizesTags.visitReference m)

/- The next call of the current loop or iteration. -/
def call
    (m : TagAddresses)
    (h : Heap O)
    (data : Tagged O jlong (Option TagMemory)) :
    Work O →
      Option (Tagged O jlong (Option TagMemory) × Work O)
| .createTags ((o, i) :: todo) =>
    some (setTag o (createTagForObject m i (data.tag o)) data,
      .createTags todo)
| .tagClasses ((o, i) :: todo) =>
    some (setTag o (tagClass m i (data.tag o)) data,
      .tagClasses todo)
| .iterate callback (o :: todo) =>
    some (setTag o
        (callback.run m (data.tag (h.classOf o)) (data.tag o))
        data,
      .iterate callback todo)
| .walk (o :: todo) [] visited =>
    match data.user with
    | none => none
    | some tags =>
        if data.tag o ∈ tags.tagsWithNewInfo then
          some (⟨data.tag,
              some (tags.eraseNewInfo (data.tag o))⟩,
            .walk todo (h.reportsOf o) [o])
        else
          some (data, .walk todo [] visited)
| _ => none

/- Roots are reported before the other references. -/
def MayReport
    (pending : List (Report O))
    (r : Report O) : Prop :=
  r ∈ pending ∧
    (r.referrer ≠ none → ∀ q ∈ pending, q.referrer ≠ none)

instance
    (pending : List (Report O))
    (r : Report O) :
    Decidable (MayReport pending r) := by
  unfold MayReport
  infer_instance

def report
    (m : TagAddresses)
    (h : Heap O)
    (r : Report O)
    (data : Tagged O jlong (Option TagMemory)) :
    Work O →
      Option (Tagged O jlong (Option TagMemory) × Work O)
| .follow callback pending visited =>
    if MayReport pending r then
      let next :=
        Worklist.report h.graph
          (h.invoke (callback.callback m)) r
          ⟨pending, visited, data⟩
      some (next.data,
        .follow callback next.pending next.expanded)
    else
      none
| .walk todo pending visited =>
    if MayReport pending r then
      let next :=
        Worklist.report h.graph
          (h.invoke
            (referenceCallback (SizesTags.spreadInfo m))) r
          ⟨pending, visited, data⟩
      some (next.data,
        .walk todo next.pending next.expanded)
    else
      none
| _ => none

variable [Fintype O]

/- What a stage begins with, and the collected objects. -/
def begin
    (m : TagAddresses)
    (h : Heap O)
    (data : Tagged O jlong (Option TagMemory))
    (order objects : List O) :
    Stage O → Option (Work O × List O)
| .iterate callback =>
    if order.Nodup ∧
        ∀ o, o ∈ order ↔
          callback.passes h data.tag o = true then
      some (.iterate callback order, objects)
    else
      none
| .follow callback =>
    some (.follow callback h.rootReports [], objects)
| .collect =>
    if Heap.ObjectsWithTags data [m.tagWithNewInfo] order then
      some (.createTags [], order)
    else
      none
| .retag listed =>
    some (.createTags
        (listed.filter
          (fun p => data.tag p.1 = m.tagWithNewInfo)),
      objects)
| .walk => some (.walk objects [] [], objects)

/- One step, if the command is possible. -/
def execute
    (m : TagAddresses)
    (s : State O) : Command O → Option (State O)
| .start heap action =>
    match s.point with
    | .idle =>
        some ⟨heap, s.data,
          .running action.first action.stages []⟩
    | _ => none
| .call =>
    match s.point with
    | .running work rest objects =>
        (call m s.heap s.data work).map
          (fun next =>
            ⟨s.heap, next.1,
              .running next.2 rest objects⟩)
    | .cleaning (o :: todo) =>
        some ⟨s.heap,
          setTag o (clearTag m (s.data.tag o)) s.data,
          .cleaning todo⟩
    | _ => none
| .report r =>
    match s.point with
    | .running work rest objects =>
        (report m s.heap r s.data work).map
          (fun next =>
            ⟨s.heap, next.1,
              .running next.2 rest objects⟩)
    | _ => none
| .begin order =>
    match s.point with
    | .running work (stage :: rest) objects =>
        if work.isDone = true then
          (begin m s.heap s.data order objects stage).map
            (fun next =>
              ⟨s.heap, s.data,
                .running next.1 rest next.2⟩)
        else
          none
    | _ => none
| .clean order =>
    match s.point with
    | .running _ _ _ =>
        if order.Nodup ∧ ∀ o, o ∈ order then
          some ⟨s.heap, s.data, .cleaning order⟩
        else
          none
    | _ => none
| .finish =>
    match s.point with
    | .cleaning [] => some ⟨s.heap, s.data, .idle⟩
    | _ => none

/- A sequence of runs, the last of them up to any step. -/
def run
    (m : TagAddresses)
    (s : State O)
    (commands : List (Command O)) : Option (State O) :=
  commands.foldlM (execute m) s

/- The states of such sequences, from untagged objects. -/
def Reachable
    (m : TagAddresses)
    (s : State O) : Prop :=
  ∃ heap commands, run m (.initial heap) commands = some s

end Machine

------------------------------------------------------------
-- What a Step Can Do
------------------------------------------------------------

section Steps

variable {O : Type}
variable [DecidableEq O] [Fintype O]

/- The steps that are possible, one case for each. -/
inductive Step (m : TagAddresses) :
    State O → Command O → State O → Prop
  | start
      (before heap : Heap O)
      (data : Tagged O jlong (Option TagMemory))
      (action : Action O) :
      Step m ⟨before, data, .idle⟩ (.start heap action)
        ⟨heap, data,
          .running action.first action.stages []⟩
  | call
      {h : Heap O}
      {data : Tagged O jlong (Option TagMemory)}
      {work : Work O}
      {rest : List (Stage O)}
      {objects : List O}
      {next : Tagged O jlong (Option TagMemory) × Work O}
      (hCall : SizesTags.call m h data work = some next) :
      Step m ⟨h, data, .running work rest objects⟩ .call
        ⟨h, next.1, .running next.2 rest objects⟩
  | clear
      (h : Heap O)
      (data : Tagged O jlong (Option TagMemory))
      (o : O)
      (todo : List O) :
      Step m ⟨h, data, .cleaning (o :: todo)⟩ .call
        ⟨h, setTag o (clearTag m (data.tag o)) data,
          .cleaning todo⟩
  | report
      {h : Heap O}
      {data : Tagged O jlong (Option TagMemory)}
      {work : Work O}
      {rest : List (Stage O)}
      {objects : List O}
      {r : Report O}
      {next : Tagged O jlong (Option TagMemory) × Work O}
      (hReport :
        SizesTags.report m h r data work = some next) :
      Step m ⟨h, data, .running work rest objects⟩
        (.report r)
        ⟨h, next.1, .running next.2 rest objects⟩
  | begin
      {h : Heap O}
      {data : Tagged O jlong (Option TagMemory)}
      {work : Work O}
      {stage : Stage O}
      {rest : List (Stage O)}
      {order objects : List O}
      {next : Work O × List O}
      (hDone : work.isDone = true)
      (hBegin :
        SizesTags.begin m h data order objects stage =
          some next) :
      Step m ⟨h, data, .running work (stage :: rest) objects⟩
        (.begin order)
        ⟨h, data, .running next.1 rest next.2⟩
  | clean
      {h : Heap O}
      {data : Tagged O jlong (Option TagMemory)}
      {work : Work O}
      {rest : List (Stage O)}
      {order objects : List O}
      (hOrder : order.Nodup ∧ ∀ o, o ∈ order) :
      Step m ⟨h, data, .running work rest objects⟩
        (.clean order) ⟨h, data, .cleaning order⟩
  | finish
      (h : Heap O)
      (data : Tagged O jlong (Option TagMemory)) :
      Step m ⟨h, data, .cleaning []⟩ .finish
        ⟨h, data, .idle⟩

theorem step_of_execute
    {m : TagAddresses}
    {s s' : State O}
    {command : Command O}
    (hStep : execute m s command = some s') :
    Step m s command s' := by
  rcases s with ⟨h, data, point⟩
  cases command with
  | start heap action =>
      cases point with
      | idle =>
          cases hStep
          exact .start h heap data action
      | running work rest objects => cases hStep
      | cleaning todo => cases hStep
  | call =>
      cases point with
      | idle => cases hStep
      | running work rest objects =>
          rcases Option.map_eq_some_iff.mp hStep with
            ⟨next, hCall, hEq⟩
          cases hEq
          exact .call hCall
      | cleaning todo =>
          cases todo with
          | nil => cases hStep
          | cons o todo =>
              cases hStep
              exact .clear h data o todo
  | report r =>
      cases point with
      | idle => cases hStep
      | running work rest objects =>
          rcases Option.map_eq_some_iff.mp hStep with
            ⟨next, hReport, hEq⟩
          cases hEq
          exact .report hReport
      | cleaning todo => cases hStep
  | begin order =>
      cases point with
      | idle => cases hStep
      | running work rest objects =>
          cases rest with
          | nil => cases hStep
          | cons stage rest =>
              simp only [execute] at hStep
              split at hStep
              · next hDone =>
                  rcases Option.map_eq_some_iff.mp hStep with
                    ⟨next, hBegin, hEq⟩
                  cases hEq
                  exact .begin hDone hBegin
              · cases hStep
      | cleaning todo => cases hStep
  | clean order =>
      cases point with
      | idle => cases hStep
      | running work rest objects =>
          simp only [execute] at hStep
          split at hStep
          · next hOrder =>
              cases hStep
              exact .clean hOrder
          · cases hStep
      | cleaning todo => cases hStep
  | finish =>
      cases point with
      | idle => cases hStep
      | running work rest objects => cases hStep
      | cleaning todo =>
          cases todo with
          | nil =>
              cases hStep
              exact .finish h data
          | cons o todo => cases hStep

end Steps

------------------------------------------------------------
-- Invariants
------------------------------------------------------------

section Invariants

variable {O : Type}
variable {m : TagAddresses}
variable {tag : O → jlong}
variable {tags : TagMemory}

/- What holds while a stage goes on. -/
def WorkInvariant
    (m : TagAddresses)
    (tag : O → jlong)
    (tags : TagMemory) : Work O → Prop
| .createTags todo => ∀ p ∈ todo, tag p.1 ≠ m.emptyTag
| .tagClasses _ => ClassTagged tag tags
| .walk _ pending _ => ∀ r ∈ pending, r.referrer ≠ none
| _ => True

/- What holds at a point of the machine. -/
def PointInvariant
    (m : TagAddresses)
    (tag : O → jlong)
    (tags : TagMemory) : Point O → Prop
| .idle => ∀ o, tag o = 0
| .running work _ _ => WorkInvariant m tag tags work
| .cleaning todo => ∀ o, tag o ≠ 0 → o ∈ todo

variable [Fintype O]

/- All tags in use are owned, and none was used too late. -/
structure Invariant
    (m : TagAddresses)
    (data : Tagged O jlong (Option TagMemory))
    (holds : (O → jlong) → TagMemory → Prop)
    (tags : TagMemory) : Prop where
  user : data.user = some tags
  owned : Owned m data.tag tags
  holds : holds data.tag tags

variable [DecidableEq O]
variable {data : Tagged O jlong (Option TagMemory)}
variable {h : Heap O}
variable {o : O}

omit [Fintype O] in
theorem setTag_eq
    {f : TagMemory → Option (jlong × TagMemory)}
    {b : jlong}
    {tags' : TagMemory}
    (hUser : data.user = some tags)
    (hF : f tags = some (b, tags')) :
    SizesTags.setTag o f data =
      ⟨Function.update data.tag o b, some tags'⟩ := by
  unfold SizesTags.setTag
  simp [hUser, hF]

variable (hCard : Fintype.card O < refCountSize)
include hCard

omit hCard in
theorem Iteration.retags
    (callback : Iteration)
    (hOwned : Owned m tag tags)
    (o c : O) :
    Retags m tag o
      (callback.run m (tag c) (tag o) tags) := by
  cases callback with
  | tagObjectOfTaggedClass =>
      exact hOwned.tagObjectOfTaggedClass o c
  | retagStartObjects => exact hOwned.retagStartObjects o c
  | visitObject =>
      rcases hOwned.exists_visitedInfos o with ⟨infos, hEq⟩
      exact ⟨tag o, tags, by simp [Iteration.run, hEq],
        hOwned.keep o⟩
  | visitObjectForShallowAndRetainedSize =>
      rcases hOwned.exists_visitedInfos o with ⟨infos, hEq⟩
      exact ⟨tag o, tags, by simp [Iteration.run, hEq],
        hOwned.keep o⟩
  | calculateShallowSize =>
      rcases hOwned.exists_classTag c with ⟨ids, hEq⟩
      exact ⟨tag o, tags, by simp [Iteration.run, hEq],
        hOwned.keep o⟩

omit hCard in
/- The next call keeps the invariant of its stage. -/
theorem Invariant.call
    {work : Work O}
    {next : Tagged O jlong (Option TagMemory) × Work O}
    (hInvariant :
      Invariant m data
        (fun tag tags => WorkInvariant m tag tags work) tags)
    (hCall : SizesTags.call m h data work = some next) :
    ∃ tags',
      Invariant m next.1
        (fun tag tags => WorkInvariant m tag tags next.2)
        tags' := by
  rcases hInvariant with ⟨hUser, hOwned, hWork⟩
  cases work with
  | createTags todo =>
      cases todo with
      | nil => cases hCall
      | cons p todo =>
          rcases p with ⟨o, i⟩
          rw [← Option.some.inj hCall]
          rcases hOwned.createTagForObject i
              (hWork (o, i) List.mem_cons_self) with
            ⟨b, tags', hEq, hNext, hNe⟩
          rw [setTag_eq hUser hEq]
          refine ⟨tags', rfl, hNext, ?_⟩
          intro q hMem
          by_cases hSame : q.1 = o
          · dsimp only
            rw [hSame, Function.update_self]
            exact hNe
          · dsimp only
            rw [Function.update_of_ne hSame]
            exact hWork q (List.mem_cons_of_mem _ hMem)
  | tagClasses todo =>
      cases todo with
      | nil => cases hCall
      | cons p todo =>
          rcases p with ⟨o, i⟩
          rw [← Option.some.inj hCall]
          rcases hOwned.tagClass hWork i o with
            ⟨b, tags', hEq, hNext, hClass⟩
          rw [setTag_eq hUser hEq]
          exact ⟨tags', rfl, hNext, hClass⟩
  | iterate callback todo =>
      cases todo with
      | nil => cases hCall
      | cons o todo =>
          rw [← Option.some.inj hCall]
          rcases callback.retags hOwned o (h.classOf o) with
            ⟨b, tags', hEq, hNext⟩
          rw [setTag_eq hUser hEq]
          exact ⟨tags', rfl, hNext, trivial⟩
  | follow callback pending visited => cases hCall
  | walk todo pending visited =>
      cases todo with
      | nil => cases hCall
      | cons o todo =>
          cases pending with
          | cons r pending => cases hCall
          | nil =>
              unfold SizesTags.call at hCall
              rw [hUser] at hCall
              dsimp only at hCall
              split at hCall
              · rw [← Option.some.inj hCall]
                refine ⟨_, rfl, hOwned.withNewInfo _, ?_⟩
                intro r hMem
                rw [((h.mem_reportsOf_iff o r).mp hMem).1]
                exact Option.some_ne_none o
              · rw [← Option.some.inj hCall]
                exact ⟨tags, hUser, hOwned, hWork⟩

omit hCard [Fintype O] in
/- A report whose callback gives its referee a tag. -/
theorem report_referenceCallback
    {f :
      ReferenceArguments jlong → TagMemory →
        Option (jlong × TagMemory)}
    {r : Report O}
    {b : jlong}
    {tags' : TagMemory}
    (hUser : data.user = some tags)
    (hF : f (h.arguments r data) tags = some (b, tags')) :
    h.invoke (referenceCallback f) r data =
      (⟨Function.update data.tag r.referee b, some tags'⟩,
        .visit) := by
  unfold Heap.invoke referenceCallback
  simp [hUser, hF, Tagged.setTag]

omit hCard [Fintype O] in
theorem arguments_tag
    (r : Report O) :
    (h.arguments r data).tag = data.tag r.referee :=
  rfl

omit hCard [Fintype O] in
theorem exists_referrer
    (r : Report O)
    (a : jlong)
    (hArg : (h.arguments r data).referrerTag = some a) :
    ∃ p, data.tag p = a := by
  change r.referrer.map data.tag = some a at hArg
  rcases Option.map_eq_some_iff.mp hArg with ⟨p, _, hEq⟩
  exact ⟨p, hEq⟩

theorem Traversal.retags
    (callback : Traversal)
    (hUser : data.user = some tags)
    (hOwned : Owned m data.tag tags)
    (r : Report O) :
    ∃ b tags',
      h.invoke (callback.callback m) r data =
        (⟨Function.update data.tag r.referee b, some tags'⟩,
          .visit) ∧
      Owned m (Function.update data.tag r.referee b)
        tags' := by
  cases callback with
  | getTagsWithNewInfo =>
      rcases hOwned.getTagsWithNewInfo hCard
          (arguments_tag r)
          (exists_referrer r) with ⟨b, tags', hEq, hNext⟩
      exact ⟨b, tags', report_referenceCallback hUser hEq,
        hNext⟩
  | visitReference =>
      rcases hOwned.visitReference hCard
          (arguments_tag r)
          (exists_referrer r) with ⟨b, tags', hEq, hNext⟩
      exact ⟨b, tags', report_referenceCallback hUser hEq,
        hNext⟩

theorem spreadInfo_retags
    (hUser : data.user = some tags)
    (hOwned : Owned m data.tag tags)
    {r : Report O}
    (hReferrer : r.referrer ≠ none) :
    ∃ b tags',
      h.invoke (referenceCallback (SizesTags.spreadInfo m)) r
          data =
        (⟨Function.update data.tag r.referee b, some tags'⟩,
          .visit) ∧
      Owned m (Function.update data.tag r.referee b)
        tags' := by
  rcases Option.ne_none_iff_exists'.mp hReferrer with
    ⟨p, hP⟩
  have hArg :
      (h.arguments r data).referrerTag =
        some (data.tag p) := by
    change r.referrer.map data.tag = some (data.tag p)
    rw [hP]
    rfl
  rcases hOwned.spreadInfo hCard
      (arguments_tag r) ⟨p, hArg⟩ with
    ⟨b, tags', hEq, hNext⟩
  exact ⟨b, tags', report_referenceCallback hUser hEq, hNext⟩

omit hCard [Fintype O] in
/- New pending references are held by the visited object. -/
theorem mem_pending_report
    {S : Type}
    {callback : Worklist.Callback (Report O) S}
    {state : Worklist.State O (Report O) S}
    {r q : Report O}
    (hMem :
      q ∈ (Worklist.report h.graph callback r
        state).pending) :
    q ∈ state.pending ∨ q.referrer ≠ none := by
  unfold Worklist.report at hMem
  dsimp only at hMem
  split at hMem
  · cases hMem
  · exact Or.inl (List.mem_of_mem_erase hMem)
  · split at hMem
    · exact Or.inl (List.mem_of_mem_erase hMem)
    · rcases List.mem_append.mp hMem with hOld | hNew
      · exact Or.inl (List.mem_of_mem_erase hOld)
      · apply Or.inr
        rw [((h.mem_reportsOf_iff _ q).mp hNew).1]
        exact Option.some_ne_none _

/- A report keeps the invariant of its traversal. -/
theorem Invariant.report
    {work : Work O}
    {r : Report O}
    {next : Tagged O jlong (Option TagMemory) × Work O}
    (hInvariant :
      Invariant m data
        (fun tag tags => WorkInvariant m tag tags work) tags)
    (hReport :
      SizesTags.report m h r data work = some next) :
    ∃ tags',
      Invariant m next.1
        (fun tag tags => WorkInvariant m tag tags next.2)
        tags' := by
  rcases hInvariant with ⟨hUser, hOwned, hWork⟩
  cases work with
  | createTags todo => cases hReport
  | tagClasses todo => cases hReport
  | iterate callback todo => cases hReport
  | follow callback pending visited =>
      simp only [SizesTags.report] at hReport
      split at hReport
      · rw [← Option.some.inj hReport]
        rcases callback.retags hCard hUser hOwned r with
          ⟨b, tags', hEq, hNext⟩
        refine ⟨tags', ?_, ?_, trivial⟩
        · dsimp only
          rw [Worklist.report_data, hEq]
        · dsimp only
          rw [Worklist.report_data, hEq]
          exact hNext
      · cases hReport
  | walk todo pending visited =>
      simp only [SizesTags.report] at hReport
      split at hReport
      · next hMay =>
          rw [← Option.some.inj hReport]
          rcases spreadInfo_retags hCard hUser hOwned
              (hWork r hMay.1) with ⟨b, tags', hEq, hNext⟩
          refine ⟨tags', ?_, ?_, ?_⟩
          · dsimp only
            rw [Worklist.report_data, hEq]
          · dsimp only
            rw [Worklist.report_data, hEq]
            exact hNext
          · intro q hMem
            rcases mem_pending_report hMem with hOld | hHeld
            · exact hWork q hOld
            · exact hHeld
      · cases hReport

omit hCard in
/- So does the beginning of a stage. -/
theorem workInvariant_begin
    {order objects : List O}
    {stage : Stage O}
    {next : Work O × List O}
    (hBegin :
      SizesTags.begin m h data order objects stage =
        some next) :
    WorkInvariant m data.tag tags next.1 := by
  cases stage with
  | iterate callback =>
      simp only [SizesTags.begin] at hBegin
      split at hBegin
      · rw [← Option.some.inj hBegin]
        trivial
      · cases hBegin
  | follow callback =>
      rw [← Option.some.inj hBegin]
      trivial
  | collect =>
      simp only [SizesTags.begin] at hBegin
      split at hBegin
      · rw [← Option.some.inj hBegin]
        intro p hMem
        exact absurd hMem List.not_mem_nil
      · cases hBegin
  | retag listed =>
      rw [← Option.some.inj hBegin]
      intro p hMem
      have hTag := (List.mem_filter.mp hMem).2
      rw [decide_eq_true_iff] at hTag
      rw [hTag]
      exact Ne.symm (static_ne m).2.2.1
  | walk =>
      rw [← Option.some.inj hBegin]
      intro r hMem
      exact absurd hMem List.not_mem_nil

omit hCard in
/- A stage begins when the work before it is done. -/
theorem begin_of_execute
    {s s' : State O}
    {work : Work O}
    {stage : Stage O}
    {rest : List (Stage O)}
    {order objects : List O}
    (hPoint :
      s.point = .running work (stage :: rest) objects)
    (hStep :
      SizesTags.execute m s (.begin order) = some s') :
    work.isDone = true ∧
      ∃ next,
        begin m s.heap s.data order objects stage =
          some next ∧
        s' = ⟨s.heap, s.data,
          .running next.1 rest next.2⟩ := by
  rcases s with ⟨h, data, point⟩
  dsimp only at hPoint
  subst hPoint
  cases step_of_execute hStep with
  | begin hDone hBegin => exact ⟨hDone, _, hBegin, rfl⟩

/- Every step keeps the invariant. -/
theorem Invariant.execute
    {s s' : State O}
    {command : Command O}
    (hInvariant :
      Invariant m s.data
        (fun tag tags => PointInvariant m tag tags s.point)
        tags)
    (hStep : SizesTags.execute m s command = some s') :
    ∃ tags',
      Invariant m s'.data
        (fun tag tags => PointInvariant m tag tags s'.point)
        tags' := by
  rcases hInvariant with ⟨hUser, hOwned, hPoint⟩
  cases step_of_execute hStep with
  | start before heap data action =>
      refine ⟨tags, hUser, hOwned, ?_⟩
      have hZero : ∀ o, data.tag o = 0 := hPoint
      cases action with
      | estimateRetainedSize objects =>
          intro p _
          rw [hZero]
          exact Ne.symm (static_ne m).1
      | getRetainedSizeByClasses classes =>
          exact fun o => Or.inl (hZero o)
      | getShallowAndRetainedSizeByClasses classes =>
          exact fun o => Or.inl (hZero o)
      | getShallowSizeByClasses classes =>
          exact fun o => Or.inl (hZero o)
  | call hCall =>
      exact Invariant.call ⟨hUser, hOwned, hPoint⟩ hCall
  | clear h data o todo =>
      rcases hOwned.clearTag hCard o with ⟨tags', hEq, hNext⟩
      rw [setTag_eq hUser hEq]
      refine ⟨tags', rfl, hNext, ?_⟩
      intro p hTag
      by_cases hSame : p = o
      · dsimp only at hTag
        rw [hSame, Function.update_self] at hTag
        exact absurd rfl hTag
      · dsimp only at hTag
        rw [Function.update_of_ne hSame] at hTag
        rcases List.mem_cons.mp (hPoint p hTag) with
          hHead | hTail
        · exact absurd hHead hSame
        · exact hTail
  | report hReport =>
      exact Invariant.report hCard ⟨hUser, hOwned, hPoint⟩
        hReport
  | begin _ hBegin =>
      exact ⟨tags, hUser, hOwned, workInvariant_begin hBegin⟩
  | clean hOrder =>
      exact ⟨tags, hUser, hOwned, fun o _ => hOrder.2 o⟩
  | finish h data =>
      refine ⟨tags, hUser, hOwned, ?_⟩
      intro o
      by_contra hNe
      exact absurd (hPoint o hNe) List.not_mem_nil

omit hCard [DecidableEq O] in
theorem Invariant.initial
    (heap : Heap O) :
    Invariant m (State.initial heap).data
      (fun tag tags => PointInvariant m tag tags .idle)
      .initial := by
  have hNone : ∀ a, owners m.reserved
      (fun _ : O => (0 : jlong)) a = 0 := by
    intro a
    by_contra hNe
    rcases exists_owner hNe with ⟨hNot, o, hEq⟩
    apply hNot
    rw [← hEq]
    exact zero_mem_reserved m
  refine ⟨rfl, ⟨⟨⟨?_, ?_⟩, ?_, rfl⟩, ?_⟩, fun _ => rfl⟩
  · intro a r hGet
    cases hGet
  · intro a _
    exact hNone a
  · intro a _
    exact hNone a
  · intro o
    exact Ne.symm (static_ne m).2.2.2.2.2

/- Every run keeps the invariant. -/
theorem Invariant.run
    {s s' : State O}
    (commands : List (Command O))
    (hInvariant :
      Invariant m s.data
        (fun tag tags => PointInvariant m tag tags s.point)
        tags)
    (hRun : SizesTags.run m s commands = some s') :
    ∃ tags',
      Invariant m s'.data
        (fun tag tags => PointInvariant m tag tags s'.point)
        tags' := by
  induction commands generalizing s tags with
  | nil =>
      rw [← Option.some.inj hRun]
      exact ⟨tags, hInvariant⟩
  | cons command commands ih =>
      unfold SizesTags.run at hRun
      rw [List.foldlM_cons] at hRun
      rcases Option.bind_eq_some_iff.mp hRun with
        ⟨t, hStep, hRest⟩
      rcases hInvariant.execute hCard hStep with
        ⟨next, hNext⟩
      exact ih hNext hRest

theorem Reachable.invariant
    {s : State O}
    (hReachable : Reachable m s) :
    ∃ tags,
      Invariant m s.data
        (fun tag tags => PointInvariant m tag tags s.point)
        tags := by
  rcases hReachable with ⟨heap, commands, hRun⟩
  exact Invariant.run hCard commands
    (Invariant.initial heap) hRun

omit hCard [DecidableEq O] in
/- Between two runs no tag is left. -/
theorem Owned.get_eq_none
    (hOwned : Owned m tag tags)
    (hZero : ∀ o, tag o = 0)
    (a : jlong) :
    tags.store.get a = none := by
  by_contra hLive
  rcases Option.ne_none_iff_exists'.mp hLive with ⟨t, hT⟩
  have hCount := (hOwned.consistent.counted.live a t hT).2
  rcases exists_owner hCount with ⟨hNot, o, hEq⟩
  apply hNot
  rw [← hEq, hZero o]
  exact zero_mem_reserved m

end Invariants

------------------------------------------------------------
-- Tag Ownership
------------------------------------------------------------

/-
  In every reachable state no deleted tag has been used, and
  the tag of an object is 0, static, or a live one whose
  `refCount` is the number of objects that carry it.
  Between two runs all tags are 0, and every one that was
  created was deleted, exactly once.
-/
theorem reachable_tags
    {O : Type}
    [Fintype O]
    [DecidableEq O]
    (m : TagAddresses)
    (s : State O)
    (hCard : Fintype.card O < refCountSize)
    (hReachable : Reachable m s) :
    ∃ tags, s.data.user = some tags ∧
      (∀ o, s.data.tag o = 0 ∨ m.isStatic (s.data.tag o) ∨
        ∃ t, tags.store.get (s.data.tag o) = some t ∧
          t.refCount =
            (Finset.univ.filter
              (fun p => s.data.tag p = s.data.tag o)).card) ∧
      (s.point = .idle →
        (∀ o, s.data.tag o = 0) ∧
        (∀ a, tags.store.get a = none) ∧
        tags.store.deleted.Perm
          (List.range tags.store.created) ∧
        tags.sizesTagBalance = 0) := by
  rcases hReachable.invariant hCard with
    ⟨tags, hUser, hOwned, hPoint⟩
  refine ⟨tags, hUser, ?_, ?_⟩
  · intro o
    by_cases hMem : s.data.tag o ∈ m.reserved
    · rcases mem_reserved_iff.mp hMem with hZero | hStatic
      · exact Or.inl hZero
      · exact Or.inr (Or.inl hStatic)
    · have hCount := owners_ne_zero hMem
      rcases hOwned.consistent.counted.exists_get hCount with
        ⟨t, hT⟩
      have hRef :=
        (hOwned.consistent.counted.live _ t hT).1
      refine Or.inr (Or.inr ⟨t, hT, hRef.trans ?_⟩)
      exact if_neg hMem
  · intro hIdle
    rw [hIdle] at hPoint
    have hNone := hOwned.get_eq_none hPoint
    refine ⟨hPoint, hNone, Store.deleted_perm hNone, ?_⟩
    rw [hOwned.consistent.balance, Store.size_eq_zero hNone]
    rfl

/- An object with a field and the object it refers to. -/
def pairHeap : Heap Bool where
  roots := [⟨.stackLocal, .none, false⟩]
  references := fun o =>
    if o = false then [⟨.field, .none, true⟩] else []
  size := fun _ => 16
  classOf := id
  roots_isRoot := by decide
  references_isHeld := by decide
  size_pos := fun _ => sixteen_pos

/- Static tags at three addresses, and new ones above. -/
def lowAddresses : TagAddresses where
  emptyTag := 1
  tagWithNewInfo := 2
  heldObjectTag := 3
  nodup := by decide
  alloc := ascending 3 (by decide)

/- A run on the first object up to its first traversal. -/
def pairCommands : List (Command Bool) :=
  [.start pairHeap (.estimateRetainedSize [false]), .call,
    .begin [], .report ⟨none, .stackLocal, .none, false⟩,
    .report ⟨some false, .field, .none, true⟩]

theorem reachable_tags_pair :
    ∃ s, run lowAddresses (.initial pairHeap) pairCommands =
        some s ∧
      s.data.tag true ≠ 0 ∧
      ∃ tags, s.data.user = some tags ∧
        (∀ o, s.data.tag o = 0 ∨
          lowAddresses.isStatic (s.data.tag o) ∨
          ∃ t, tags.store.get (s.data.tag o) = some t ∧
            t.refCount =
              (Finset.univ.filter
                (fun p =>
                  s.data.tag p = s.data.tag o)).card) ∧
        (s.point = .idle →
          (∀ o, s.data.tag o = 0) ∧
          (∀ a, tags.store.get a = none) ∧
          tags.store.deleted.Perm
            (List.range tags.store.created) ∧
          tags.sizesTagBalance = 0) := by
  have hSome :
      ((run lowAddresses (.initial pairHeap)
        pairCommands).map (fun s => s.data.tag true)).any
          (fun b => decide (b ≠ 0)) = true := by
    decide +kernel
  cases hRun :
      run lowAddresses (.initial pairHeap) pairCommands with
  | none =>
      rw [hRun] at hSome
      cases hSome
  | some s =>
      refine ⟨s, rfl, ?_, ?_⟩
      · rw [hRun] at hSome
        simpa using hSome
      · exact reachable_tags lowAddresses s
          (by decide +kernel)
          ⟨pairHeap, pairCommands, hRun⟩

end SizesTags

end MemoryAgent
