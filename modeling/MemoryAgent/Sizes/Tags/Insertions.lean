import MemoryAgent.Graph.PartialSteps
import MemoryAgent.Sizes.Tags.NewInfo

/-
  What the steps insert into `tagsWithNewInfo` and erase from
  it, over sequences of runs.  `cleanHeap` erases nothing, so
  that the set is empty after it if all that was inserted was
  erased before.

  Key definitions include:
    * `SizesTags.inserted`
    * `SizesTags.Erases`
    * `SizesTags.ErasesInserted`
    * `SizesTags.Current`

  Main results:
    * `SizesTags.Changes.execute`
    * `SizesTags.erasesInserted_iff`
    * `SizesTags.ErasesInserted.current`
    * `SizesTags.everyStep_of_empty`
-/

------------------------------------------------------------
-- Insertions and Erasures
------------------------------------------------------------

namespace MemoryAgent

namespace SizesTags

open RecordStore TagMemory PartialSteps

section Runs

variable {O : Type}
variable [DecidableEq O] [Fintype O]
variable {m : TagAddresses}
variable {tag : O → jlong}
variable {tags tags' : TagMemory}
variable {o : O}

/- The tag that an object with a tag gets instead of it. -/
def replaced (a b : jlong) : List jlong :=
  if a = 0 ∨ b = a then [] else [b]

/-
  The tags that a step inserts: those that objects get in
  place of others, in the second traversal and when the start
  objects are retagged.
-/
def inserted
    (s : State O)
    (command : Command O)
    (s' : State O) : List jlong :=
  match command, s.point with
  | .report r, .running (.follow .visitReference _ _) _ _ =>
      replaced (s.data.tag r.referee)
        (s'.data.tag r.referee)
  | .call,
    .running (.iterate .retagStartObjects (o :: _)) _ _ =>
      replaced (s.data.tag o) (s'.data.tag o)
  | _, _ => []

/-
  The tags that a step erases: that of a referee which gets
  another one in the second traversal, or is reported by a
  tagged object in a walk, and that of the object which the
  loop over the start objects comes to.
-/
def Erases
    (s : State O)
    (command : Command O)
    (s' : State O)
    (a : jlong) : Prop :=
  match command, s.point with
  | .report r, .running (.follow .visitReference _ _) _ _ =>
      s.data.tag r.referee = a ∧ s'.data.tag r.referee ≠ a
  | .report r, .running (.walk _ _ _) _ _ =>
      s.data.tag r.referee = a ∧
        r.reference.kind.isJni = false ∧
        r.referrer.map s.data.tag ≠ some 0
  | .call, .running (.walk (o :: _) _ _) _ _ =>
      s.data.tag o = a
  | _, _ => False

instance
    (s : State O)
    (command : Command O)
    (s' : State O)
    (a : jlong) :
    Decidable (Erases s command s' a) := by
  unfold Erases
  split
  · infer_instance
  · infer_instance
  · infer_instance
  · infer_instance

omit [DecidableEq O] [Fintype O] in
theorem mem_replaced_iff
    {a b c : jlong} :
    c ∈ replaced a b ↔ a ≠ 0 ∧ b ≠ a ∧ c = b := by
  unfold replaced
  split
  · next hOr =>
      refine iff_of_false List.not_mem_nil ?_
      rintro ⟨hZero, hNe, _⟩
      exact hOr.elim hZero hNe
  · next hNot =>
      rw [not_or] at hNot
      rw [List.mem_singleton]
      exact ⟨fun hEq => ⟨hNot.1, hNot.2, hEq⟩,
        fun hAll => hAll.2.2⟩

/- What is inserted, and what else is not kept. -/
structure Changes
    (m : TagAddresses)
    (inserts : List jlong)
    (erases : jlong → Prop)
    (tags tags' : TagMemory) : Prop where
  mem_iff :
    ∀ a, a ∈ tags'.tagsWithNewInfo ↔
      a ∈ inserts ∨ (a ∈ tags.tagsWithNewInfo ∧ ¬ erases a)
  not_reserved : ∀ a ∈ inserts, a ∉ m.reserved

theorem Changes.of_same
    (hSame : tags'.tagsWithNewInfo = tags.tagsWithNewInfo) :
    Changes m [] (fun _ => False) tags tags' := by
  constructor
  · intro a
    rw [hSame]
    simp
  · exact fun a hMem => absurd hMem List.not_mem_nil

/- The loop comes to a start object. -/
theorem changes_eraseNewInfo
    (c : jlong) :
    Changes m [] (fun a => c = a) tags
      (tags.eraseNewInfo c) := by
  constructor
  · intro a
    change a ∈ tags.tagsWithNewInfo.erase c ↔ _
    rw [or_iff_right List.not_mem_nil, Finset.mem_erase,
      and_comm, ne_comm]
  · exact fun a hMem => absurd hMem List.not_mem_nil

/- It comes to another object. -/
theorem changes_skip
    {c : jlong}
    (hNot : c ∉ tags.tagsWithNewInfo) :
    Changes m [] (fun a => c = a) tags tags := by
  constructor
  · intro a
    rw [or_iff_right List.not_mem_nil]
    refine ⟨fun hMem => ⟨hMem, ?_⟩, And.left⟩
    intro hEq
    rw [hEq] at hNot
    exact hNot hMem
  · exact fun a hMem => absurd hMem List.not_mem_nil

theorem Changes.noReserved
    {inserts : List jlong}
    {erases : jlong → Prop}
    (hChanges : Changes m inserts erases tags tags')
    (hNoReserved : NoReserved m tags) :
    NoReserved m tags' := by
  intro a hMem
  rcases (hChanges.mem_iff a).mp hMem with hNew | ⟨hOld, _⟩
  · exact hChanges.not_reserved a hNew
  · exact hNoReserved a hOld

variable {args : ReferenceArguments jlong}
variable {b : jlong}

theorem changes_visitReference
    (hOwned : Owned m tag tags)
    (hNoReserved : NoReserved m tags)
    (hTag : args.tag = tag o)
    (hReferrer :
      ∀ a, args.referrerTag = some a → ∃ p, tag p = a)
    (hSome :
      SizesTags.visitReference m args tags =
        some (b, tags')) :
    Changes m
      (replaced (tag o) (Function.update tag o b o))
      (fun a =>
        tag o = a ∧ Function.update tag o b o ≠ a)
      tags tags' := by
  rw [Function.update_self, ← hTag]
  rcases visitReference_newInfo hOwned hReferrer hNoReserved
      hSome with
    ⟨hKeep | hZero, hSame⟩ | ⟨hZero, hNe, hNot, hNew⟩
  · constructor
    · intro a
      rw [mem_replaced_iff, hKeep, hSame]
      simp
    · intro a hMem
      exact absurd hKeep (mem_replaced_iff.mp hMem).2.1
  · constructor
    · intro a
      rw [mem_replaced_iff, hZero, hSame]
      have hNot : (0 : jlong) ∉ tags.tagsWithNewInfo :=
        fun hMem =>
          hNoReserved 0 hMem (zero_mem_reserved m)
      constructor
      · intro hMem
        refine Or.inr ⟨hMem, ?_⟩
        rintro ⟨hEq, _⟩
        exact hNot (hEq ▸ hMem)
      · rintro (⟨hFalse, _⟩ | ⟨hMem, _⟩)
        · exact absurd rfl hFalse
        · exact hMem
    · intro a hMem
      exact absurd hZero (mem_replaced_iff.mp hMem).1
  · constructor
    · intro a
      rw [mem_replaced_iff, hNew, Finset.mem_insert,
        Finset.mem_erase]
      constructor
      · rintro (hEq | ⟨hOther, hMem⟩)
        · exact Or.inl ⟨hZero, hNe, hEq⟩
        · exact Or.inr ⟨hMem,
            fun hBoth => hOther hBoth.1.symm⟩
      · rintro (⟨_, _, hEq⟩ | ⟨hMem, hKept⟩)
        · exact Or.inl hEq
        · by_cases hOld : a = args.tag
          · rw [not_and_not_right] at hKept
            exact Or.inl (hKept hOld.symm).symm
          · exact Or.inr ⟨hOld, hMem⟩
    · intro a hMem
      rw [(mem_replaced_iff.mp hMem).2.2]
      exact hNot

omit [DecidableEq O] [Fintype O] in
theorem changes_spreadInfo
    (hNoReserved : NoReserved m tags)
    (hTag : args.tag = tag o)
    (hSome :
      SizesTags.spreadInfo m args tags =
        some (b, tags')) :
    Changes m []
      (fun a =>
        tag o = a ∧ args.refKind.isJni = false ∧
          args.referrerTag ≠ some 0)
      tags tags' := by
  refine ⟨fun a => ?_,
    fun a hMem => absurd hMem List.not_mem_nil⟩
  rw [or_iff_right List.not_mem_nil, ← hTag]
  rcases spreadInfo_newInfo hSome with
    ⟨_, hSame, hSkip⟩ | ⟨hErased, hJni, hReferrer⟩
  · rw [hSame]
    refine ⟨fun hMem => ⟨hMem, ?_⟩, And.left⟩
    rintro ⟨hEq, hJni, hReferrer⟩
    rcases hSkip with hTrue | hZero | hNone
    · rw [hTrue] at hJni
      cases hJni
    · rw [← hEq] at hMem
      exact hNoReserved _ hMem (mem_reserved_of_zero hZero)
    · exact hReferrer hNone
  · rw [hErased, Finset.mem_erase, and_comm]
    apply and_congr_right
    intro _
    constructor
    · intro hNe hAll
      exact hNe hAll.1.symm
    · intro hNot hEq
      exact hNot ⟨hEq.symm, hJni, hReferrer⟩

omit [Fintype O] in
theorem changes_retagStartObjects
    {classTag : jlong}
    (hSome :
      SizesTags.retagStartObjects m classTag (tag o) tags =
        some (b, tags')) :
    Changes m
      (replaced (tag o) (Function.update tag o b o))
      (fun _ => False) tags tags' := by
  rw [Function.update_self]
  rcases retagStartObjects_newInfo hSome with
    ⟨hKeep, hSame⟩ | ⟨hNew, hNot, hInsert⟩
  · constructor
    · intro a
      rw [mem_replaced_iff, hKeep, hSame]
      simp
    · intro a hMem
      exact absurd hKeep (mem_replaced_iff.mp hMem).2.1
  · constructor
    · intro a
      have hZero := (static_ne m).2.1
      have hNe := ne_tagWithNewInfo_of_not_mem hNot
      rw [mem_replaced_iff, hNew, hInsert,
        Finset.mem_insert]
      simp [hZero, hNe]
    · intro a hMem
      rw [(mem_replaced_iff.mp hMem).2.2]
      exact hNot

variable {s s' : State O}
variable {command : Command O}

/- How a step changes the set. -/
theorem Changes.execute
    (hUser : s.data.user = some tags)
    (hOwned : Owned m s.data.tag tags)
    (hNoReserved : NoReserved m tags)
    (hStep : SizesTags.execute m s command = some s')
    (hNext : s'.data.user = some tags') :
    Changes m (inserted s command s')
      (Erases s command s') tags tags' := by
  have hKeep (hData : s'.data.user = s.data.user) :
      tags' = tags := by
    rw [hNext, hUser] at hData
    exact Option.some.inj hData
  cases step_of_execute hStep with
  | start before heap data action =>
      rw [hKeep rfl]
      exact Changes.of_same rfl
  | @call h data work rest objects next hCall =>
      rcases next with ⟨⟨tag', user⟩, work'⟩
      have hCalled :
          Called m h data.tag tags work tag' tags' work' :=
        called_of_call hUser hCall hNext
      cases hCalled with
      | createTag hSome =>
          exact Changes.of_same
            (createTagForObject_newInfo hSome).1
      | tagClass hSome =>
          exact Changes.of_same (tagClass_newInfo hSome)
      | @iterate callback _ _ _ _ hSome =>
          cases callback with
          | tagObjectOfTaggedClass =>
              exact Changes.of_same
                (tagObjectOfTaggedClass_newInfo hSome).1
          | retagStartObjects =>
              exact changes_retagStartObjects hSome
          | visitObject =>
              rw [(reads_of_map hSome).2]
              exact Changes.of_same rfl
          | visitObjectForShallowAndRetainedSize =>
              rw [(reads_of_map hSome).2]
              exact Changes.of_same rfl
          | calculateShallowSize =>
              rw [(reads_of_map hSome).2]
              exact Changes.of_same rfl
      | walk => exact changes_eraseNewInfo _
      | skip hNot => exact changes_skip hNot
  | clear h data o todo =>
      rcases setTag_some hUser hNext with ⟨b, hSome, _⟩
      exact Changes.of_same (clearTag_newInfo hSome)
  | @report h data work rest objects r next hReport =>
      rcases next with ⟨⟨tag', user⟩, work'⟩
      have hReported :
          Reported m (h.arguments r data) data.tag tags
            r.referee work tag' tags' work' :=
        reported_of_report hUser hReport hNext
      cases hReported with
      | getTags hSome =>
          exact Changes.of_same
            (getTagsWithNewInfo_newInfo hSome)
      | visit hSome =>
          exact changes_visitReference hOwned hNoReserved
            (arguments_tag r) (exists_referrer r) hSome
      | spread hSome =>
          exact changes_spreadInfo hNoReserved
            (arguments_tag r) hSome
  | begin _ _ =>
      rw [hKeep rfl]
      exact Changes.of_same rfl
  | clean _ =>
      rw [hKeep rfl]
      exact Changes.of_same rfl
  | finish h data =>
      rw [hKeep rfl]
      exact Changes.of_same rfl

------------------------------------------------------------
-- Runs
------------------------------------------------------------

/- A tag of the set, while there is a memory. -/
def HasNewInfo
    (s : State O)
    (a : jlong) : Prop :=
  ∃ tags, s.data.user = some tags ∧
    a ∈ tags.tagsWithNewInfo

omit [DecidableEq O] [Fintype O] in
theorem hasNewInfo_iff_mem
    (hUser : s.data.user = some tags)
    (a : jlong) :
    HasNewInfo s a ↔ a ∈ tags.tagsWithNewInfo := by
  constructor
  · rintro ⟨tags', hUser', hMem⟩
    rw [hUser] at hUser'
    rw [Option.some.inj hUser']
    exact hMem
  · exact fun hMem => ⟨tags, hUser, hMem⟩

omit [DecidableEq O] [Fintype O] in
theorem eq_empty_of_no_newInfo
    (hUser : s.data.user = some tags)
    (hNone : ∀ a, ¬ HasNewInfo s a) :
    tags.tagsWithNewInfo = ∅ :=
  Finset.eq_empty_of_forall_notMem
    (fun a hMem => hNone a ⟨tags, hUser, hMem⟩)

omit [DecidableEq O] [Fintype O] in
theorem no_newInfo_of_eq_empty
    (hUser : s.data.user = some tags)
    (hEmpty : tags.tagsWithNewInfo = ∅)
    (a : jlong) :
    ¬ HasNewInfo s a := by
  rw [hasNewInfo_iff_mem hUser, hEmpty]
  exact Finset.notMem_empty a

/- What holds of the set in every run. -/
def Kept
    (m : TagAddresses)
    (s : State O) : Prop :=
  ∃ tags,
    Invariant m s.data
      (fun tag tags => PointInvariant m tag tags s.point)
      tags ∧
    NoReserved m tags

/-
  What holds of it in the runs that leave nothing in it.  It
  stays empty up to the end of the first traversal.
-/
def Current
    (m : TagAddresses)
    (s : State O) : Prop :=
  ∃ tags,
    Invariant m s.data
      (fun tag tags => PointInvariant m tag tags s.point)
      tags ∧
    WhileEarly NoNewInfo s.data.tag tags s.point ∧
    NewInfo m s.data.tag tags s.point

omit [DecidableEq O] in
theorem Kept.initial
    (heap : Heap O) :
    Kept m (.initial heap) :=
  ⟨.initial, Invariant.initial heap,
    fun _ hMem => absurd hMem (Finset.notMem_empty _)⟩

omit [DecidableEq O] in
theorem Current.initial
    (heap : Heap O) :
    Current m (.initial heap) :=
  ⟨.initial, Invariant.initial heap, trivial, rfl⟩

theorem Kept.execute
    (hCard : Fintype.card O < refCountSize)
    (hKept : Kept m s)
    (hStep : SizesTags.execute m s command = some s') :
    Kept m s' := by
  rcases hKept with ⟨tags, hInvariant, hNoReserved⟩
  rcases hInvariant.execute hCard hStep with ⟨tags', hNext⟩
  have hChanges :=
    Changes.execute hInvariant.user hInvariant.owned
      hNoReserved hStep hNext.user
  exact ⟨tags', hNext, hChanges.noReserved hNoReserved⟩

theorem hasNewInfo_iff
    (hCard : Fintype.card O < refCountSize)
    (hKept : Kept m s)
    (hStep : SizesTags.execute m s command = some s')
    (a : jlong) :
    HasNewInfo s' a ↔
      a ∈ inserted s command s' ∨
        (HasNewInfo s a ∧ ¬ Erases s command s' a) := by
  rcases hKept with ⟨tags, hInvariant, hNoReserved⟩
  rcases hInvariant.execute hCard hStep with ⟨tags', hNext⟩
  have hChanges :=
    Changes.execute hInvariant.user hInvariant.owned
      hNoReserved hStep hNext.user
  rw [hasNewInfo_iff_mem hNext.user,
    hasNewInfo_iff_mem hInvariant.user]
  exact hChanges.mem_iff a

/- A step, after which nothing is left for `cleanHeap`. -/
theorem NewInfo.execute
    (hUser : s.data.user = some tags)
    (hOwned : Owned m s.data.tag tags)
    (hEarly : WhileEarly NoNewInfo s.data.tag tags s.point)
    (hNewInfo : NewInfo m s.data.tag tags s.point)
    (hClean :
      ¬ command.continues → tags.tagsWithNewInfo = ∅)
    (hStep : SizesTags.execute m s command = some s')
    (hNext : s'.data.user = some tags') :
    NewInfo m s'.data.tag tags' s'.point := by
  have hKeep (hData : s'.data.user = s.data.user) :
      tags' = tags := by
    rw [hNext, hUser] at hData
    exact Option.some.inj hData
  cases step_of_execute hStep with
  | start before heap data action =>
      rw [hKeep rfl]
      exact Carried.of_empty hNewInfo
  | call hCall =>
      exact Carried.call hUser hNewInfo hEarly hCall hNext
  | clear h data o todo =>
      rcases setTag_some hUser hNext with ⟨b, hSome, _⟩
      exact (clearTag_newInfo hSome).trans hNewInfo
  | report hReport =>
      exact Carried.report hUser hOwned hNewInfo hEarly
        hReport hNext
  | begin _ _ =>
      rw [hKeep rfl]
      exact hNewInfo
  | clean _ =>
      rw [hKeep rfl]
      exact hClean id
  | finish h data =>
      rw [hKeep rfl]
      exact hNewInfo

theorem Current.execute
    (hCard : Fintype.card O < refCountSize)
    (hCurrent : Current m s)
    (hClean : command.continues ∨ ∀ a, ¬ HasNewInfo s a)
    (hStep : SizesTags.execute m s command = some s') :
    Current m s' := by
  rcases hCurrent with ⟨tags, hInvariant, hEarly, hNewInfo⟩
  rcases hInvariant.execute hCard hStep with ⟨tags', hNext⟩
  have hStart :
      s.point = .idle → NoNewInfo s.data.tag tags := by
    intro hIdle
    rw [hIdle] at hNewInfo
    exact hNewInfo
  have hEarly' :=
    hEarly.execute (noNewInfo_stable m) hStart
      hInvariant.user hInvariant.owned hStep hNext.user
  have hNewInfo' :=
    hNewInfo.execute hInvariant.user hInvariant.owned hEarly
      (fun hEnds => eq_empty_of_no_newInfo hInvariant.user
        (hClean.resolve_left hEnds))
      hStep hNext.user
  exact ⟨tags', hNext, hEarly', hNewInfo'⟩

/-
  Each tag that a step inserts is erased by a later step of
  the same run, before its `cleanHeap` begins.
-/
def ErasesInserted
    (m : TagAddresses)
    (s : State O)
    (commands : List (Command O)) : Prop :=
  EachErased (SizesTags.execute m) Command.continues inserted
    Erases s commands

instance
    (m : TagAddresses)
    (s : State O)
    (commands : List (Command O)) :
    Decidable (ErasesInserted m s commands) := by
  unfold ErasesInserted
  infer_instance

/- Then the set is empty when `cleanHeap` begins. -/
theorem erasesInserted_iff
    (hCard : Fintype.card O < refCountSize)
    (heap : Heap O)
    (commands : List (Command O)) :
    ErasesInserted m (.initial heap) commands ↔
      EveryStep (SizesTags.execute m)
        (fun s command =>
          command.continues ∨ ∀ a, ¬ HasNewInfo s a)
        (.initial heap) commands := by
  rw [← eachErased_iff
    (fun s command s' hKept hStep =>
      hKept.execute hCard hStep)
    (fun s command s' hKept hStep a =>
      hasNewInfo_iff hCard hKept hStep a)
    (Kept.initial heap) commands]
  refine (and_iff_left ?_).symm
  intro a hMem
  exact absurd hMem (no_newInfo_of_eq_empty rfl rfl a)

theorem ErasesInserted.current
    {heap : Heap O}
    {commands : List (Command O)}
    (hCard : Fintype.card O < refCountSize)
    (hErases : ErasesInserted m (.initial heap) commands) :
    Throughout (SizesTags.execute m) (Current m)
      (.initial heap) commands :=
  throughout_of_everyStep
    (fun _ _ _ hCurrent hClean hStep =>
      hCurrent.execute hCard hClean hStep)
    (Current.initial heap)
    ((erasesInserted_iff hCard heap commands).mp hErases)

end Runs

end SizesTags

end MemoryAgent
