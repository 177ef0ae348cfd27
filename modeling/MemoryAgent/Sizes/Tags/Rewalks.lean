import MemoryAgent.Sizes.Tags.Insertions
import MemoryAgent.Sizes.Tags.Renaming

/-
  Two runs of one action on one heap, with the references and
  objects in the same order, take the same steps at different
  addresses, if both begin with an empty `tagsWithNewInfo`.
  In particular they walk from the same start objects.

  Key definitions include:
    * `SizesTags.rewalked`
    * `SizesTags.AlikeData`
    * `SizesTags.Isolated`

  Main results:
    * `SizesTags.AlikeData.execute`
    * `SizesTags.rewalked_eq`
    * `SizesTags.tagsWithNewInfo_isolated`
-/

------------------------------------------------------------
-- Steps of Two Runs
------------------------------------------------------------

namespace MemoryAgent

namespace SizesTags

open RecordStore TagMemory PartialSteps

section Steps

variable {O : Type}
variable [DecidableEq O]
variable {m m' : TagAddresses}
variable {h : Heap O}
variable {o : O}

/- The objects carry matching tags of memories alike. -/
def AlikeData
    (m m' : TagAddresses)
    (data data' : Tagged O jlong (Option TagMemory)) :
    Prop :=
  ∃ rel : jlong → jlong → Prop,
    Option.Rel (Alike m m' rel) data.user data'.user ∧
      ∀ o, rel (data.tag o) (data'.tag o)

/- Tags that are carried or in the set were not deleted. -/
structure Live
    (m : TagAddresses)
    (tag : O → jlong)
    (tags : TagMemory) : Prop where
  inUse : ∀ o, tags.InUse m (tag o)
  listed : Listed m tags

variable {rel : jlong → jlong → Prop}
variable {tag tag' : O → jlong}
variable {tags tags' : TagMemory}
variable {data data' : Tagged O jlong (Option TagMemory)}

omit [DecidableEq O] in
theorem Live.of_carried
    [Fintype O]
    (hOwned : Owned m tag tags)
    (hCarried : Carried m tag tags) :
    Live m tag tags := by
  have hInUse : ∀ o, tags.InUse m (tag o) := by
    intro o
    by_cases hMem : tag o ∈ m.reserved
    · exact Or.inl hMem
    · rcases hOwned.consistent.exists_get
          (owners_ne_zero hMem) with ⟨t, hT, _⟩
      exact InUse.of_get hT
  refine ⟨hInUse, ?_⟩
  intro a hMem
  rcases hCarried a hMem with ⟨_, o, hEq⟩
  rw [← hEq]
  exact hInUse o

/- One object gets other tags that match. -/
theorem matching_update
    {b b' : jlong}
    (hTags : ∀ p, rel (tag p) (tag' p))
    (hNew : rel b b')
    (p : O) :
    rel (Function.update tag o b p)
      (Function.update tag' o b' p) := by
  by_cases hEq : p = o
  · rw [hEq, Function.update_self, Function.update_self]
    exact hNew
  · rw [Function.update_of_ne hEq, Function.update_of_ne hEq]
    exact hTags p

/- An object gets matching tags in both runs. -/
theorem Renamed.update
    {x y : jlong × TagMemory}
    (hTags : ∀ p, rel (tag p) (tag' p))
    (hLive : Live m tag tags)
    (hRenamed : Renamed m m' rel tags x y)
    (o : O) :
    AlikeData m m'
      ⟨Function.update tag o x.1, some x.2⟩
      ⟨Function.update tag' o y.1, some y.2⟩ := by
  rcases hRenamed with ⟨rel', hAlike, hNew, hGrows⟩
  exact ⟨rel', .some hAlike, matching_update
    (fun p => hGrows (hLive.inUse p) (hTags p)) hNew⟩

theorem alikeData_setTag
    {f g : TagMemory → Option (jlong × TagMemory)}
    (hUser : data.user = some tags)
    (hUser' : data'.user = some tags')
    (hTags : ∀ p, rel (data.tag p) (data'.tag p))
    (hLive : Live m data.tag tags)
    (hBoth :
      Option.Rel (Renamed m m' rel tags) (f tags)
        (g tags')) :
    AlikeData m m' (setTag o f data)
      (setTag o g data') := by
  unfold setTag
  rw [hUser, hUser', Option.bind_some, Option.bind_some]
  rcases rel_cases hBoth with
    ⟨hF, hG⟩ | ⟨x, y, hF, hG, hRenamed⟩
  · rw [hF, hG]
    exact ⟨rel, .none, hTags⟩
  · rw [hF, hG]
    exact hRenamed.update hTags hLive o

/- The callback gives the same answer in both runs. -/
theorem alikeData_invoke
    {f g :
      ReferenceArguments jlong → TagMemory →
        Option (jlong × TagMemory)}
    {r : Report O}
    (hUser : data.user = some tags)
    (hUser' : data'.user = some tags')
    (hTags : ∀ p, rel (data.tag p) (data'.tag p))
    (hLive : Live m data.tag tags)
    (hBoth :
      Option.Rel (Renamed m m' rel tags)
        (f (h.arguments r data) tags)
        (g (h.arguments r data') tags')) :
    (h.invoke (referenceCallback f) r data).2 =
        (h.invoke (referenceCallback g) r data').2 ∧
      AlikeData m m'
        (h.invoke (referenceCallback f) r data).1
        (h.invoke (referenceCallback g) r data').1 := by
  unfold Heap.invoke referenceCallback Tagged.setTag
  rw [hUser, hUser', Option.bind_some, Option.bind_some]
  rcases rel_cases hBoth with
    ⟨hF, hG⟩ | ⟨x, y, hF, hG, hRenamed⟩
  · rw [hF, hG]
    exact ⟨rfl, rel, .none,
      matching_update hTags (hTags r.referee)⟩
  · rw [hF, hG]
    exact ⟨rfl, hRenamed.update hTags hLive r.referee⟩

section Twins

variable (hUser : data.user = some tags)
variable (hUser' : data'.user = some tags')
variable (hTags : ∀ p, rel (data.tag p) (data'.tag p))
variable (hAlike : Alike m m' rel tags tags')
variable (hLive : Live m data.tag tags)
variable (hLive' : Live m' data'.tag tags')
include hUser hUser' hTags hAlike hLive hLive'

theorem alikeData_call
    (work : Work O) :
    Option.Rel
      (fun x y => AlikeData m m' x.1 y.1 ∧ x.2 = y.2)
      (call m h data work) (call m' h data' work) := by
  cases work with
  | createTags todo =>
      cases todo with
      | nil => exact .none
      | cons p todo =>
          rcases p with ⟨o, i⟩
          exact .some ⟨alikeData_setTag hUser hUser' hTags
            hLive (hAlike.createTagForObject hLive.listed
              hLive'.listed (hTags o) (hLive.inUse o) i),
            rfl⟩
  | tagClasses todo =>
      cases todo with
      | nil => exact .none
      | cons p todo =>
          rcases p with ⟨o, i⟩
          exact .some ⟨alikeData_setTag hUser hUser' hTags
            hLive (hAlike.tagClass hLive.listed
              hLive'.listed (hTags o) i), rfl⟩
  | iterate callback todo =>
      cases todo with
      | nil => exact .none
      | cons o todo =>
          exact .some ⟨alikeData_setTag hUser hUser' hTags
            hLive (hAlike.iterate hLive.listed
              hLive'.listed (hTags _) (hTags o) callback),
            rfl⟩
  | follow callback pending visited => exact .none
  | walk todo pending visited =>
      cases todo with
      | nil => exact .none
      | cons o todo =>
          cases pending with
          | cons r pending => exact .none
          | nil =>
              unfold call
              rw [hUser, hUser']
              dsimp only
              simp only [← hAlike.newInfo (hTags o)]
              split
              · exact .some ⟨⟨rel,
                  .some (hAlike.eraseNewInfo (hTags o)),
                  hTags⟩, rfl⟩
              · refine .some ⟨⟨rel, ?_, hTags⟩, rfl⟩
                rw [hUser, hUser']
                exact .some hAlike

omit hUser hUser' hAlike hLive' in
theorem alikeArguments
    (r : Report O) :
    AlikeArguments m rel tags (h.arguments r data)
      (h.arguments r data') where
  refKind := rfl
  tag := hTags r.referee
  referrerTag := by
    unfold Heap.arguments
    dsimp only
    cases r.referrer with
    | none => exact .none
    | some p => exact .some ⟨hTags p, hLive.inUse p⟩

theorem alikeData_report
    (r : Report O)
    (work : Work O) :
    Option.Rel
      (fun x y => AlikeData m m' x.1 y.1 ∧ x.2 = y.2)
      (report m h r data work)
      (report m' h r data' work) := by
  have hArgs := alikeArguments (h := h) hTags hLive r
  cases work with
  | createTags todo => exact .none
  | tagClasses todo => exact .none
  | iterate callback todo => exact .none
  | follow callback pending visited =>
      simp only [report]
      split
      · have hInvoke :
            (h.invoke (callback.callback m) r data).2 =
                (h.invoke (callback.callback m') r data').2 ∧
              AlikeData m m'
                (h.invoke (callback.callback m) r data).1
                (h.invoke (callback.callback m') r
                  data').1 := by
          cases callback with
          | getTagsWithNewInfo =>
              exact alikeData_invoke hUser hUser' hTags hLive
                (hAlike.getTagsWithNewInfo hLive.listed
                  hLive'.listed hArgs)
          | visitReference =>
              exact alikeData_invoke hUser hUser' hTags hLive
                (hAlike.visitReference hLive.listed
                  hLive'.listed hArgs)
        have hSame :=
          Worklist.report_congr h.graph pending visited
            hInvoke.1
        refine .some ⟨?_, ?_⟩
        · rw [Worklist.report_data, Worklist.report_data]
          exact hInvoke.2
        · rw [hSame.1, hSame.2]
      · exact .none
  | walk todo pending visited =>
      simp only [report]
      split
      · have hInvoke :=
          alikeData_invoke (h := h) hUser hUser' hTags hLive
            (hAlike.spreadInfo hLive.listed hLive'.listed
              hArgs)
        have hSame :=
          Worklist.report_congr h.graph pending visited
            hInvoke.1
        refine .some ⟨?_, ?_⟩
        · rw [Worklist.report_data, Worklist.report_data]
          exact hInvoke.2
        · rw [hSame.1, hSame.2]
      · exact .none

omit hUser hUser' hLive hLive' in
theorem begin_eq
    [Fintype O]
    (order objects : List O)
    (stage : Stage O) :
    begin m h data order objects stage =
      begin m' h data' order objects stage := by
  cases stage with
  | iterate callback =>
      have hPasses :
          ∀ o, callback.passes h data.tag o =
            callback.passes h data'.tag o := by
        intro o
        have hZero := hAlike.zero_iff (hTags o)
        have hClass := hAlike.zero_iff (hTags (h.classOf o))
        cases callback with
        | tagObjectOfTaggedClass => rfl
        | calculateShallowSize =>
            simp only [Iteration.passes, ne_eq, hClass]
        | retagStartObjects =>
            simp only [Iteration.passes, ne_eq, hZero]
        | visitObject =>
            simp only [Iteration.passes, ne_eq, hZero]
        | visitObjectForShallowAndRetainedSize =>
            simp only [Iteration.passes, ne_eq, hZero]
      simp only [begin, hPasses]
  | follow callback => rfl
  | collect =>
      have hSame :
          ∀ o, data.tag o = m.tagWithNewInfo ↔
            data'.tag o = m'.tagWithNewInfo :=
        fun o => hAlike.eq_iff (hTags o) hAlike.reset
      have hZero :
          ∀ o, data.tag o = 0 ↔ data'.tag o = 0 :=
        fun o => hAlike.zero_iff (hTags o)
      simp only [begin, Heap.ObjectsWithTags,
        List.mem_singleton, ne_eq, hSame, hZero]
  | retag listed =>
      have hSame :
          ∀ o, data.tag o = m.tagWithNewInfo ↔
            data'.tag o = m'.tagWithNewInfo :=
        fun o => hAlike.eq_iff (hTags o) hAlike.reset
      simp only [begin, hSame]
  | walk => rfl

end Twins

end Steps

------------------------------------------------------------
-- Runs
------------------------------------------------------------

section Runs

variable {O : Type}
variable [DecidableEq O] [Fintype O]
variable {m m' : TagAddresses}
variable {s s' : State O}
variable {command : Command O}
variable {commands : List (Command O)}

/- The start object that a step begins to walk from. -/
def rewalk
    (s : State O)
    (command : Command O) : List O :=
  match command, s.point, s.data.user with
  | .call, .running (.walk (o :: _) [] _) _ _, some tags =>
      if s.data.tag o ∈ tags.tagsWithNewInfo then [o]
      else []
  | _, _, _ => []

/- Two states at the same point of the same run. -/
structure Twins
    (m m' : TagAddresses)
    (s s' : State O) : Prop where
  heap : s.heap = s'.heap
  point : s.point = s'.point
  data : AlikeData m m' s.data s'.data

omit [DecidableEq O] [Fintype O] in
theorem NewInfo.carried
    {tag : O → jlong}
    {tags : TagMemory}
    {point : Point O}
    (hNewInfo : NewInfo m tag tags point) :
    Carried m tag tags := by
  cases point with
  | idle => exact Carried.of_empty hNewInfo
  | running work rest objects => exact hNewInfo
  | cleaning todo => exact Carried.of_empty hNewInfo

omit [DecidableEq O] in
theorem Current.live
    (hCurrent : Current m s) :
    ∃ tags, s.data.user = some tags ∧
      Live m s.data.tag tags := by
  rcases hCurrent with ⟨tags, hInvariant, _, hNewInfo⟩
  exact ⟨tags, hInvariant.user,
    Live.of_carried hInvariant.owned hNewInfo.carried⟩

omit [DecidableEq O] [Fintype O] in
theorem rewalk_eq
    {h : Heap O}
    {data data' : Tagged O jlong (Option TagMemory)}
    {point : Point O}
    {rel : jlong → jlong → Prop}
    {tags tags' : TagMemory}
    (hUser : data.user = some tags)
    (hUser' : data'.user = some tags')
    (hTags : ∀ p, rel (data.tag p) (data'.tag p))
    (hAlike : Alike m m' rel tags tags')
    (command : Command O) :
    rewalk ⟨h, data, point⟩ command =
      rewalk ⟨h, data', point⟩ command := by
  unfold rewalk
  dsimp only
  rw [hUser, hUser']
  split
  · next o _ _ _ _ _ hSome =>
      cases hSome
      simp only [hAlike.newInfo (hTags o)]
  · next hNot =>
      split
      · exact (hNot _ _ _ _ _ tags rfl rfl rfl).elim
      · rfl

omit [DecidableEq O] in
theorem Current.empty
    (hCurrent : Current m s)
    (hIdle : s.point = .idle)
    (a : jlong) :
    ¬ HasNewInfo s a := by
  rcases hCurrent with ⟨tags, hInvariant, _, hNewInfo⟩
  rw [hIdle] at hNewInfo
  exact no_newInfo_of_eq_empty hInvariant.user hNewInfo a

/- Twins take the same step, from the same start object. -/
theorem Twins.execute
    (hTwins : Twins m m' s s')
    (hCurrent : Current m s)
    (hCurrent' : Current m' s')
    (command : Command O) :
    rewalk s command = rewalk s' command ∧
      Option.Rel (Twins m m') (execute m s command)
        (execute m' s' command) := by
  rcases hCurrent.live with ⟨tags, hUser, hLive⟩
  rcases hCurrent'.live with ⟨tags', hUser', hLive'⟩
  rcases s with ⟨h, data, point⟩
  rcases s' with ⟨h', data', point'⟩
  rcases hTwins with ⟨hHeap, hPoint, hData⟩
  dsimp only at hHeap hPoint hData hUser hUser' hLive hLive'
  subst hHeap hPoint
  have hBoth := hData
  rcases hBoth with ⟨rel, hMemory, hTags⟩
  rw [hUser, hUser', Option.rel_some_some] at hMemory
  refine ⟨rewalk_eq hUser hUser' hTags hMemory command, ?_⟩
  cases command with
  | start heap action =>
      cases point with
      | idle => exact .some ⟨rfl, rfl, hData⟩
      | running work rest objects => exact .none
      | cleaning todo => exact .none
  | call =>
      cases point with
      | idle => exact .none
      | running work rest objects =>
          apply rel_map (alikeData_call hUser hUser' hTags
            hMemory hLive hLive' work)
          rintro x y ⟨hNext, hWork⟩
          exact ⟨rfl, by rw [hWork], hNext⟩
      | cleaning todo =>
          cases todo with
          | nil => exact .none
          | cons o todo =>
              exact .some ⟨rfl, rfl,
                alikeData_setTag hUser hUser' hTags hLive
                  (hMemory.clearTag (hTags o))⟩
  | report r =>
      cases point with
      | idle => exact .none
      | running work rest objects =>
          apply rel_map (alikeData_report hUser hUser' hTags
            hMemory hLive hLive' r work)
          rintro x y ⟨hNext, hWork⟩
          exact ⟨rfl, by rw [hWork], hNext⟩
      | cleaning todo => exact .none
  | begin order =>
      cases point with
      | idle => exact .none
      | running work rest objects =>
          cases rest with
          | nil => exact .none
          | cons stage rest =>
              simp only [SizesTags.execute]
              rw [begin_eq hTags hMemory order objects stage]
              split
              · cases begin m' h data' order objects stage with
                | none => exact .none
                | some next => exact .some ⟨rfl, rfl, hData⟩
              · exact .none
      | cleaning todo => exact .none
  | clean order =>
      cases point with
      | idle => exact .none
      | running work rest objects =>
          simp only [SizesTags.execute]
          split
          · exact .some ⟨rfl, rfl, hData⟩
          · exact .none
      | cleaning todo => exact .none
  | finish =>
      cases point with
      | idle => exact .none
      | running work rest objects => exact .none
      | cleaning todo =>
          cases todo with
          | nil => exact .some ⟨rfl, rfl, hData⟩
          | cons o todo => exact .none

/- A run begins with an empty set. -/
theorem Current.start
    (hCard : Fintype.card O < refCountSize)
    (hCurrent : Current m s)
    (hIdle : s.point = .idle)
    (h : Heap O)
    (action : Action O) :
    SizesTags.execute m s (.start h action) =
        some ⟨h, s.data,
          .running action.first action.stages []⟩ ∧
      Current m
        ⟨h, s.data,
          .running action.first action.stages []⟩ := by
  have hStep :
      SizesTags.execute m s (.start h action) =
        some ⟨h, s.data,
          .running action.first action.stages []⟩ := by
    unfold SizesTags.execute
    rw [hIdle]
  exact ⟨hStep, hCurrent.execute hCard
    (Or.inr (hCurrent.empty hIdle)) hStep⟩

end Runs

/-
  A root refers to object 1 and then to object 0, which
  refers to object 1, and that to object 2.
-/
def lateHeap : Heap (Fin 4) where
  roots :=
    [⟨.stackLocal, .none, 1⟩, ⟨.stackLocal, .none, 0⟩]
  references := fun o =>
    if o = 0 then [⟨.field, .none, 1⟩]
    else if o = 1 then [⟨.field, .none, 2⟩]
    else []
  size := fun _ => 16
  classOf := fun _ => 3
  roots_isRoot := by decide
  references_isHeld := by decide
  size_pos := fun _ => sixteen_pos

/- The references in the order of a traversal. -/
def lateReports : List (Command (Fin 4)) :=
  [.report ⟨none, .stackLocal, .none, 1⟩,
    .report ⟨none, .stackLocal, .none, 0⟩,
    .report ⟨some 1, .field, .none, 2⟩,
    .report ⟨some 0, .field, .none, 1⟩]

end SizesTags

end MemoryAgent
