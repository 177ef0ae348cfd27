import MemoryAgent.Roots.GcTags

/-
  What the traversal records: apart from the shared tag,
  every tag belongs to one object, and its back references
  are references to that object.

  Key definitions include:
    * `Roots.Carrier`
    * `Roots.Denotes`
    * `Roots.WellTagged`

  Main results:
    * `Roots.WellTagged.collectPath`
    * `Roots.createTags_wellTagged`
    * `Roots.exists_reports`
-/

------------------------------------------------------------
-- Memory
------------------------------------------------------------

namespace MemoryAgent

namespace Roots

open RecordStore

variable {m : Addresses}
variable {tags tags' tags'' : GcTags}
variable {a b : jlong}

/- A pointer that may be followed. -/
def IsPointer
    (m : Addresses)
    (tags : GcTags)
    (a : jlong) : Prop :=
  a = 0 ∨ a = m.weakSoftReferenceTag ∨
    tags.store.get a ≠ none

theorem exists_pointerToGcTag
    (hPointer : IsPointer m tags a) :
    ∃ t, tags.pointerToGcTag m a = some t := by
  unfold GcTags.pointerToGcTag
  by_cases hZero : a = 0
  · exact ⟨_, if_pos hZero⟩
  · rw [if_neg hZero]
    by_cases hShared : a = m.weakSoftReferenceTag
    · exact ⟨_, if_pos hShared⟩
    · rw [if_neg hShared]
      exact Option.ne_none_iff_exists'.mp
        ((hPointer.resolve_left hZero).resolve_left hShared)

/-
  Only the tag at `a` changed, where the references `infos`
  were appended.
-/
structure Extended
    (m : Addresses)
    (a : jlong)
    (infos : List ReferenceInfo)
    (tags tags' : GcTags) : Prop where
  others :
    ∀ b, b ≠ a → tags'.store.get b = tags.store.get b
  self :
    ∀ t, tags.store.get a = some t →
      ∃ t', tags'.store.get a = some t' ∧
        (a ≠ m.weakSoftReferenceTag →
          t'.backRefs = t.backRefs ++ infos)

theorem Extended.refl
    (m : Addresses)
    (a : jlong)
    (tags : GcTags) :
    Extended m a [] tags tags :=
  ⟨fun _ _ => rfl,
    fun t hGet => ⟨t, hGet, fun _ => (List.append_nil _).symm⟩⟩

theorem Extended.trans
    {infos infos' : List ReferenceInfo}
    (hFirst : Extended m a infos tags tags')
    (hSecond : Extended m a infos' tags' tags'') :
    Extended m a (infos ++ infos') tags tags'' := by
  constructor
  · intro b hNe
    exact (hSecond.others b hNe).trans (hFirst.others b hNe)
  · intro t hGet
    rcases hFirst.self t hGet with ⟨t', hGet', hRefs⟩
    rcases hSecond.self t' hGet' with ⟨t'', hGet'', hRefs'⟩
    refine ⟨t'', hGet'', ?_⟩
    intro hNe
    rw [hRefs' hNe, hRefs hNe, List.append_assoc]

theorem Extended.isPointer
    {infos : List ReferenceInfo}
    (hExtended : Extended m a infos tags tags')
    (hPointer : IsPointer m tags b) :
    IsPointer m tags' b := by
  refine hPointer.imp_right (Or.imp_right ?_)
  intro hLive
  by_cases hEq : b = a
  · subst hEq
    rcases Option.ne_none_iff_exists'.mp hLive with
      ⟨t, hGet⟩
    rcases hExtended.self t hGet with ⟨t', hGet', _⟩
    rw [hGet']
    exact Option.some_ne_none t'
  · rw [hExtended.others b hEq]
    exact hLive

/- Changing a tag through a pointer. -/
theorem exists_modify
    {infos : List ReferenceInfo}
    {f : GcTag → GcTag}
    (hPointer : IsPointer m tags a)
    (hNe : a ≠ 0)
    (hRefs : ∀ t, (f t).backRefs = t.backRefs ++ infos) :
    ∃ tags',
      tags.modify m a f = some tags' ∧
        Extended m a infos tags tags' := by
  unfold GcTags.modify
  rw [if_neg hNe]
  by_cases hShared : a = m.weakSoftReferenceTag
  · rw [if_pos hShared]
    refine ⟨_, rfl, fun _ _ => rfl, ?_⟩
    intro t hGet
    exact ⟨t, hGet, fun hNot => absurd hShared hNot⟩
  · rw [if_neg hShared]
    have hLive :=
      (hPointer.resolve_left hNe).resolve_left hShared
    rcases Option.ne_none_iff_exists'.mp hLive with
      ⟨t, hGet⟩
    rw [hGet]
    refine ⟨_, rfl, ?_, ?_⟩
    · intro b hNeB
      exact (Store.get_set hLive b).trans (if_neg hNeB)
    · intro t' hGet'
      have hSame : t = t' :=
        Option.some.inj (hGet.symm.trans hGet')
      refine ⟨f t, ?_, ?_⟩
      · exact (Store.get_set hLive a).trans (if_pos rfl)
      · intro _
        rw [← hSame]
        exact hRefs t

theorem exists_referrerForState
    {classTag : jlong}
    (hClass : IsPointer m tags classTag)
    (hReferrer : IsPointer m tags a) :
    ∃ t, referrerForState m tags classTag a = some t := by
  rcases exists_pointerToGcTag hReferrer with ⟨t, hT⟩
  unfold referrerForState
  by_cases hZero : classTag = 0
  · exact ⟨t, by simp [hZero, hT]⟩
  · rcases exists_pointerToGcTag hClass with ⟨c, hC⟩
    by_cases hWeak : c.isWeakSoftReachable = true
    · exact ⟨c, by simp [hZero, hC, hWeak]⟩
    · exact ⟨t, by simp [hZero, hC, hWeak, hT]⟩

/- The back reference that the callback records. -/
def recordedInfo
    (args : ReferenceArguments jlong)
    (tag : jlong) : ReferenceInfo :=
  match args.referrerTag with
  | some referrerTag =>
      createReferenceInfo
        (if args.selfReference = true then tag
          else referrerTag)
        args.refKind args.refInfo
  | none =>
      createReferenceInfo rootTag args.refKind args.refInfo

theorem exists_recordReferrer
    {args : ReferenceArguments jlong}
    (hNe : a ≠ 0)
    (hPointer : IsPointer m tags a)
    (hClass : IsPointer m tags args.referrerClassTag)
    (hReferrer :
      ∀ referrerTag, args.referrerTag = some referrerTag →
        IsPointer m tags referrerTag) :
    ∃ tags',
      recordReferrer m args a tags = some tags' ∧
        Extended m a [recordedInfo args a] tags tags' := by
  unfold recordReferrer recordedInfo
  cases hTag : args.referrerTag with
  | none => exact exists_modify hPointer hNe (fun _ => rfl)
  | some referrerTag =>
      let tag :=
        if args.selfReference = true then a else referrerTag
      have hPointerTag : IsPointer m tags tag := by
        by_cases hSelf : args.selfReference = true
        · simp only [tag, if_pos hSelf]
          exact hPointer
        · simp only [tag, if_neg hSelf]
          exact hReferrer referrerTag hTag
      rcases exists_referrerForState hClass hPointerTag with
        ⟨referrer, hFor⟩
      have hUpdate :
          ∃ tags',
            tags.updateState m a referrer = some tags' ∧
              Extended m a [] tags tags' := by
        unfold GcTags.updateState
        by_cases hShared : a ≠ m.weakSoftReferenceTag
        · rw [if_pos hShared]
          exact exists_modify hPointer hNe
            (fun _ => (List.append_nil _).symm)
        · rw [if_neg hShared]
          exact ⟨tags, rfl, Extended.refl m a tags⟩
      rcases hUpdate with ⟨tags', hState, hSame⟩
      have hPush :
          ∃ tags'',
            tags'.pushBackRef m a
                (createReferenceInfo tag args.refKind
                  args.refInfo) =
              some tags'' ∧
              Extended m a
                [createReferenceInfo tag args.refKind
                  args.refInfo] tags' tags'' :=
        exists_modify (hSame.isPointer hPointer) hNe
          (fun _ => rfl)
      rcases hPush with ⟨tags'', hPushed, hExtended⟩
      refine ⟨tags'', ?_, hSame.trans hExtended⟩
      simp only [tag] at hFor hPushed
      simp [hFor, hState, hPushed]

------------------------------------------------------------
-- Tagged Heaps
------------------------------------------------------------

variable {O : Type}

/- An object that carries the shared tag. -/
def Carrier
    (refClasses : List O)
    (target o : O) : Prop :=
  o ∈ refClasses ∧ o ≠ target

/- Some root leads to the object, JNI references included. -/
def Alive
    (h : Heap O)
    (o : O) : Prop :=
  ∃ r ∈ h.roots, h.Reachable r.referee o

/- The back reference is recorded for a reference to `o`. -/
def Denotes
    (h : Heap O)
    (tag : O → jlong)
    (o : O)
    (info : ReferenceInfo) : Prop :=
  (∃ r ∈ h.roots, r.referee = o ∧
      info = createReferenceInfo rootTag r.kind r.info) ∨
    ∃ p, Alive h p ∧ tag p ≠ 0 ∧
      ∃ r ∈ h.references p, r.referee = o ∧
        info = createReferenceInfo (tag p) r.kind r.info

/-
  Every tag but the shared one belongs to a single object,
  and is live, with references to the object.
-/
structure WellTagged
    (h : Heap O)
    (m : Addresses)
    (refClasses : List O)
    (target : O)
    (start : jlong)
    (tag : O → jlong)
    (tags : GcTags) : Prop where
  shared :
    ∀ o, tag o = m.weakSoftReferenceTag ↔
      Carrier refClasses target o
  target_tag : tag target = start
  start_ne_zero : start ≠ 0
  ne_root : ∀ o, tag o ≠ rootTag
  pointer : ∀ o, IsPointer m tags (tag o)
  inj :
    ∀ o p, tag o ≠ 0 → tag o ≠ m.weakSoftReferenceTag →
      tag o = tag p → o = p
  recorded :
    ∀ o t, tag o ≠ 0 → tag o ≠ m.weakSoftReferenceTag →
      tags.store.get (tag o) = some t →
        ∀ info ∈ t.backRefs, Denotes h tag o info

section Step

variable [DecidableEq O]
variable {h : Heap O}
variable {refClasses : List O}
variable {target o : O}
variable {start : jlong}
variable {tag : O → jlong}

theorem Denotes.update
    {info : ReferenceInfo}
    {p : O}
    (hZero : tag o = 0)
    (hDenotes : Denotes h tag p info) :
    Denotes h (Function.update tag o a) p info := by
  refine hDenotes.imp_right ?_
  rintro ⟨q, hAlive, hNe, hRest⟩
  have hNeO : q ≠ o := by
    intro hEq
    exact hNe (hEq ▸ hZero)
  refine ⟨q, hAlive, ?_⟩
  rw [Function.update_of_ne hNeO]
  exact ⟨hNe, hRest⟩

/- An untagged object gets a new tag. -/
theorem WellTagged.new
    (hTagged :
      WellTagged h m refClasses target start tag tags)
    (hZero : tag o = 0)
    {t : GcTag}
    (hEmpty : t.backRefs = []) :
    WellTagged h m refClasses target start
      (Function.update tag o (tags.new m t).1)
      (tags.new m t).2 := by
  let a : jlong := tags.store.nextAddress m.alloc
  have hReserved :
      a ∉ [0, rootTag, m.weakSoftReferenceTag] :=
    Store.nextAddress_not_reserved m.alloc
  simp only [List.mem_cons, List.not_mem_nil, or_false,
    not_or] at hReserved
  rcases hReserved with ⟨hNeZero, hNeRoot, hNeShared⟩
  have hGet :
      ∀ b, (tags.new m t).2.store.get b =
        if b = a then some t else tags.store.get b :=
    fun b => Store.get_create m.alloc b
  have hFree : tags.store.get a = none :=
    Store.get_nextAddress m.alloc
  have hOld : ∀ p, p ≠ o → tag p ≠ a := by
    intro p _ hEq
    rcases hTagged.pointer p with hP | hP | hP
    · exact hNeZero (hEq.symm.trans hP)
    · exact hNeShared (hEq.symm.trans hP)
    · rw [hEq] at hP
      exact hP hFree
  change WellTagged h m refClasses target start
    (Function.update tag o a) (tags.new m t).2
  constructor
  · intro p
    by_cases hEq : p = o
    · subst hEq
      rw [Function.update_self, ← hTagged.shared p, hZero]
      constructor
      · intro hShared
        exact absurd hShared hNeShared
      · intro hShared
        exact absurd hShared.symm m.ne_zero
    · rw [Function.update_of_ne hEq]
      exact hTagged.shared p
  · have hNe : target ≠ o := by
      intro hEq
      apply hTagged.start_ne_zero
      rw [← hTagged.target_tag, hEq]
      exact hZero
    rw [Function.update_of_ne hNe]
    exact hTagged.target_tag
  · exact hTagged.start_ne_zero
  · intro p
    by_cases hEq : p = o
    · rw [hEq, Function.update_self]
      exact hNeRoot
    · rw [Function.update_of_ne hEq]
      exact hTagged.ne_root p
  · intro p
    by_cases hEq : p = o
    · rw [hEq, Function.update_self]
      refine Or.inr (Or.inr ?_)
      rw [hGet, if_pos rfl]
      exact Option.some_ne_none t
    · rw [Function.update_of_ne hEq]
      refine (hTagged.pointer p).imp_right (Or.imp_right ?_)
      intro hLive
      rw [hGet, if_neg (hOld p hEq)]
      exact hLive
  · intro p q hNe hNotShared hSame
    by_cases hP : p = o
    · by_cases hQ : q = o
      · rw [hP, hQ]
      · rw [hP, Function.update_self,
          Function.update_of_ne hQ] at hSame
        exact absurd hSame.symm (hOld q hQ)
    · rw [Function.update_of_ne hP] at hNe hNotShared hSame
      by_cases hQ : q = o
      · rw [hQ, Function.update_self] at hSame
        exact absurd hSame (hOld p hP)
      · rw [Function.update_of_ne hQ] at hSame
        exact hTagged.inj p q hNe hNotShared hSame
  · intro p t' hNe hNotShared hGetP info hMem
    by_cases hP : p = o
    · rw [hP, Function.update_self, hGet, if_pos rfl] at hGetP
      rw [← Option.some.inj hGetP, hEmpty] at hMem
      exact absurd hMem List.not_mem_nil
    · rw [Function.update_of_ne hP] at hNe hNotShared hGetP
      rw [hGet, if_neg (hOld p hP)] at hGetP
      exact (hTagged.recorded p t' hNe hNotShared hGetP info
        hMem).update hZero

omit [DecidableEq O] in
/- References to an object are appended for it. -/
theorem WellTagged.extend
    (hTagged :
      WellTagged h m refClasses target start tag tags)
    {infos : List ReferenceInfo}
    (hExtended : Extended m (tag o) infos tags tags')
    (hDenotes : ∀ info ∈ infos, Denotes h tag o info) :
    WellTagged h m refClasses target start tag tags' := by
  refine ⟨hTagged.shared, hTagged.target_tag,
    hTagged.start_ne_zero, hTagged.ne_root, ?_,
    hTagged.inj, ?_⟩
  · exact fun p => hExtended.isPointer (hTagged.pointer p)
  · intro p t' hNe hNotShared hGet info hMem
    by_cases hEq : tag p = tag o
    · have hSame := hTagged.inj p o hNe hNotShared hEq
      subst hSame
      rcases hTagged.pointer p with hP | hP | hP
      · exact absurd hP hNe
      · exact absurd hP hNotShared
      · rcases Option.ne_none_iff_exists'.mp hP with
          ⟨t, hGetT⟩
        rcases hExtended.self t hGetT with
          ⟨t'', hGet'', hRefs⟩
        have hEqT : t'' = t' :=
          Option.some.inj (hGet''.symm.trans hGet)
        rw [← hEqT, hRefs hNotShared] at hMem
        rcases List.mem_append.mp hMem with hOld | hNew
        · exact hTagged.recorded p t hNe hNotShared hGetT
            info hOld
        · exact hDenotes info hNew
    · rw [hExtended.others _ hEq] at hGet
      exact hTagged.recorded p t' hNe hNotShared hGet info
        hMem

theorem IsPointer.new
    (t : GcTag)
    (hPointer : IsPointer m tags b) :
    IsPointer m (tags.new m t).2 b := by
  refine hPointer.imp_right (Or.imp_right ?_)
  intro hLive
  have hGet :
      (tags.new m t).2.store.get b =
        if b = tags.store.nextAddress m.alloc then some t
        else tags.store.get b :=
    Store.get_create m.alloc b
  by_cases hEq : b = tags.store.nextAddress m.alloc
  · rw [hGet, if_pos hEq]
    exact Option.some_ne_none t
  · rw [hGet, if_neg hEq]
    exact hLive

/- A report whose holder was reached and is tagged. -/
def Reportable
    (h : Heap O)
    (tag : O → jlong)
    (r : Report O) : Prop :=
  r ∈ h.rootReports ∨
    ∃ a, Alive h a ∧ tag a ≠ 0 ∧ r ∈ h.reportsOf a

variable {r : Report O}
variable {user : Option GcTags}

omit [DecidableEq O] in
theorem Reportable.alive
    (hReport : Reportable h tag r) :
    Alive h r.referee := by
  rcases hReport with hRoot | ⟨a, ⟨root, hMem, hPath⟩, _, hOut⟩
  · exact ⟨r.reference,
      ((h.mem_rootReports_iff r).mp hRoot).2, .refl⟩
  · exact ⟨root, hMem, hPath.tail ⟨r.reference,
      ((h.mem_reportsOf_iff a r).mp hOut).2, rfl⟩⟩

theorem isPointer_referrerClassTag
    (hTagged :
      WellTagged h m refClasses target start tag tags) :
    IsPointer m tags
      (h.arguments r ⟨tag, user⟩).referrerClassTag := by
  unfold Heap.arguments
  cases hReferrer : r.referrer with
  | none => exact Or.inl rfl
  | some a => exact hTagged.pointer (h.classOf a)

theorem isPointer_referrerTag
    (hTagged :
      WellTagged h m refClasses target start tag tags)
    (referrerTag : jlong)
    (hTag :
      (h.arguments r ⟨tag, user⟩).referrerTag =
        some referrerTag) :
    IsPointer m tags referrerTag := by
  rcases Option.map_eq_some_iff.mp hTag with ⟨a, _, hEq⟩
  rw [← hEq]
  exact hTagged.pointer a

/- What is recorded for a report denotes its reference. -/
theorem denotes_recordedInfo
    (hReport : Reportable h tag r)
    (hNew : tag r.referee = 0 ∨ tag r.referee = a) :
    Denotes h (Function.update tag r.referee a) r.referee
      (recordedInfo (h.arguments r ⟨tag, user⟩) a) := by
  rcases hReport with hRoot | ⟨b, hAlive, hTagB, hMem⟩
  · rcases (h.mem_rootReports_iff r).mp hRoot with
      ⟨hReferrer, hMem⟩
    refine Or.inl ⟨r.reference, hMem, rfl, ?_⟩
    simp [recordedInfo, Heap.arguments, hReferrer]
  · rcases (h.mem_reportsOf_iff b r).mp hMem with
      ⟨hReferrer, hHeld⟩
    by_cases hSelf : b = r.referee
    · have hTagA : tag b = a := by
        rw [hSelf] at hTagB ⊢
        exact hNew.resolve_left hTagB
      refine Or.inr
        ⟨b, hAlive, ?_, r.reference, hHeld, rfl, ?_⟩
      · rw [hSelf, Function.update_self, ← hTagA]
        exact hTagB
      · rw [hSelf, Function.update_self]
        simp [recordedInfo, Heap.arguments, hReferrer, hSelf]
    · refine Or.inr
        ⟨b, hAlive, ?_, r.reference, hHeld, rfl, ?_⟩
      · rw [Function.update_of_ne hSelf]
        exact hTagB
      · rw [Function.update_of_ne hSelf]
        have hNot : ¬ b = r.reference.referee := hSelf
        simp [recordedInfo, Heap.arguments, hReferrer, hNot]

/- The callback on a report, with the referee tagged. -/
theorem WellTagged.record
    (hTagged :
      WellTagged h m refClasses target start
        (Function.update tag r.referee a) tags)
    (hNe : a ≠ 0)
    (hClass :
      IsPointer m tags
        (h.arguments r ⟨tag, user⟩).referrerClassTag)
    (hReferrer :
      ∀ referrerTag,
        (h.arguments r ⟨tag, user⟩).referrerTag =
            some referrerTag →
          IsPointer m tags referrerTag)
    (hDenotes :
      Denotes h (Function.update tag r.referee a) r.referee
        (recordedInfo (h.arguments r ⟨tag, user⟩) a)) :
    ∃ tags',
      (do
        let tags ←
          recordReferrer m (h.arguments r ⟨tag, user⟩) a tags
        let tags ← tags.setVisited m a
        some (a, tags)) = some (a, tags') ∧
      WellTagged h m refClasses target start
        (Function.update tag r.referee a) tags' := by
  have hPointer : IsPointer m tags a := by
    have hOld := hTagged.pointer r.referee
    rw [Function.update_self] at hOld
    exact hOld
  rcases exists_recordReferrer hNe hPointer hClass hReferrer
    with ⟨tags', hRecord, hExtended⟩
  have hVisit :
      ∃ tags'',
        tags'.setVisited m a = some tags'' ∧
          Extended m a [] tags' tags'' :=
    exists_modify (hExtended.isPointer hPointer) hNe
      (fun _ => (List.append_nil _).symm)
  rcases hVisit with ⟨tags'', hVisited, hSame⟩
  refine ⟨tags'', by simp [hRecord, hVisited], ?_⟩
  have hBoth := hExtended.trans hSame
  rw [List.append_nil] at hBoth
  have hTag :
      Function.update tag r.referee a r.referee = a :=
    Function.update_self _ _ _
  rw [← hTag] at hBoth
  apply hTagged.extend hBoth
  intro info hMem
  rw [List.mem_singleton.mp hMem, hTag]
  exact hDenotes

theorem WellTagged.collectPath
    (hTagged :
      WellTagged h m refClasses target start tag tags)
    (hReport : Reportable h tag r) :
    ∃ a tags',
      Roots.collectPath m (h.arguments r ⟨tag, user⟩) tags =
          some (a, tags') ∧
        a ≠ 0 ∧
        WellTagged h m refClasses target start
          (Function.update tag r.referee a) tags' := by
  have hClass :
      IsPointer m tags
        (h.arguments r ⟨tag, user⟩).referrerClassTag :=
    isPointer_referrerClassTag hTagged
  have hReferrer :
      ∀ referrerTag,
        (h.arguments r ⟨tag, user⟩).referrerTag =
            some referrerTag →
          IsPointer m tags referrerTag :=
    isPointer_referrerTag hTagged
  have hTag :
      (h.arguments r ⟨tag, user⟩).tag = tag r.referee := rfl
  by_cases hZero : tag r.referee = 0
  · have hCreate :
        ∃ t : GcTag,
          t.backRefs = [] ∧
            tags.createForClass m
                (h.arguments r ⟨tag, user⟩).referrerClassTag =
              some (tags.new m t) := by
      rcases exists_pointerToGcTag hClass with ⟨c, hC⟩
      unfold GcTags.createForClass
      split
      · exact ⟨GcTag.ofWeakSoftReachable
          c.isWeakSoftReachable, rfl, by simp [hC]⟩
      · exact ⟨GcTag.ofWeakSoftReachable false, rfl, rfl⟩
    rcases hCreate with ⟨t, hEmpty, hNew⟩
    have hNext := hTagged.new hZero hEmpty
    have hNe : (tags.new m t).1 ≠ 0 := by
      have hReserved :=
        Store.nextAddress_not_reserved (s := tags.store)
          m.alloc
      intro hEq
      apply hReserved
      change (tags.new m t).1 ∈ _
      rw [hEq]
      exact List.mem_cons_self
    rcases hNext.record hNe (hClass.new t)
        (fun referrerTag hSome =>
          (hReferrer referrerTag hSome).new t)
        (denotes_recordedInfo hReport (Or.inl hZero)) with
      ⟨tags', hRecord, hTagged'⟩
    refine ⟨(tags.new m t).1, tags', ?_, hNe, hTagged'⟩
    rw [← hRecord]
    simp [Roots.collectPath, hTag, hZero, hNew]
  · have hSame :
        Function.update tag r.referee (tag r.referee) =
          tag :=
      Function.update_eq_self _ _
    have hTagged' := hTagged
    rw [← hSame] at hTagged'
    rcases hTagged'.record hZero hClass hReferrer
        (denotes_recordedInfo hReport (Or.inr rfl)) with
      ⟨tags', hRecord, hNext⟩
    refine ⟨tag r.referee, tags', ?_, hZero, hNext⟩
    rw [← hRecord]
    simp [Roots.collectPath, hTag, hZero]

------------------------------------------------------------
-- The Traversal
------------------------------------------------------------

/- The state during the traversal. -/
structure CollectInvariant
    (h : Heap O)
    (m : Addresses)
    (refClasses : List O)
    (target : O)
    (start : jlong)
    (state :
      Worklist.State O (Report O)
        (Tagged O jlong (Option GcTags))) : Prop where
  user :
    ∃ tags, state.data.user = some tags ∧
      WellTagged h m refClasses target start state.data.tag
        tags
  pending :
    ∀ r ∈ state.pending, Reportable h state.data.tag r

theorem CollectInvariant.report
    {state :
      Worklist.State O (Report O)
        (Tagged O jlong (Option GcTags))}
    (hInvariant :
      CollectInvariant h m refClasses target start state)
    (hPending : r ∈ state.pending) :
    (h.invoke (collectPaths m) r state.data).2 ≠ .stop ∧
      CollectInvariant h m refClasses target start
        (Worklist.report h.graph (h.invoke (collectPaths m)) r
          state) := by
  rcases hInvariant.user with ⟨tags, hUser, hTagged⟩
  have hReported := hInvariant.pending r hPending
  have hCall :
      ∃ a tags',
        Roots.collectPath m (h.arguments r state.data) tags =
            some (a, tags') ∧
          a ≠ 0 ∧
          WellTagged h m refClasses target start
            (Function.update state.data.tag r.referee a)
            tags' :=
    hTagged.collectPath hReported
  rcases hCall with ⟨a, tags', hCollect, hNe, hTagged'⟩
  have hAnswer :
      collectPaths m (h.arguments r state.data)
          state.data.user =
        (a, some tags', .visit) := by
    simp [collectPaths, hUser, hCollect]
  have hStop :
      (h.invoke (collectPaths m) r state.data).2 ≠ .stop := by
    rw [Heap.invoke_signal, hAnswer]
    exact Worklist.Signal.noConfusion
  have hTag :
      (h.invoke (collectPaths m) r state.data).1.tag =
        Function.update state.data.tag r.referee a := by
    rw [Heap.invoke_tag, hAnswer]
  have hUser' :
      (h.invoke (collectPaths m) r state.data).1.user =
        some tags' := by
    rw [Heap.invoke_user, hAnswer]
  have hKeep :
      ∀ b, state.data.tag b ≠ 0 →
        Function.update state.data.tag r.referee a b ≠ 0 := by
    intro b hTagB
    by_cases hEq : b = r.referee
    · rw [hEq, Function.update_self]
      exact hNe
    · rw [Function.update_of_ne hEq]
      exact hTagB
  have hErase :
      ∀ other ∈ state.pending.erase r,
        Reportable h
          (Function.update state.data.tag r.referee a)
          other := by
    intro other hMem
    refine (hInvariant.pending other
      (List.mem_of_mem_erase hMem)).imp_right ?_
    rintro ⟨b, hAlive, hTagB, hOut⟩
    exact ⟨b, hAlive, hKeep b hTagB, hOut⟩
  refine ⟨hStop, ?_, ?_⟩
  · rw [Worklist.report_data, hTag, hUser']
    exact ⟨tags', rfl, hTagged'⟩
  · rw [Worklist.report_data, hTag]
    rcases Worklist.report_cases (g := h.graph) hStop with
      ⟨_, hRest, _⟩ | ⟨_, _, hRest, _⟩
    · rw [hRest]
      exact hErase
    · rw [hRest]
      intro other hMem
      rcases List.mem_append.mp hMem with hOld | hOut
      · exact hErase other hOld
      · refine Or.inr
          ⟨r.referee, hReported.alive, ?_, hOut⟩
        rw [Function.update_self]
        exact hNe

/- Only listed classes carry the tag set for them. -/
theorem setTagsForReferences_tag
    (classes : List O)
    (shared : jlong)
    (s : Tagged O jlong Unit)
    (o : O) :
    (setTagsForReferences classes shared s).tag o =
      if o ∈ classes then shared else s.tag o := by
  unfold setTagsForReferences
  induction classes generalizing s with
  | nil => rfl
  | cons c classes ih =>
      rw [List.foldl_cons, ih]
      by_cases hRest : o ∈ classes
      · simp [hRest]
      · by_cases hEq : o = c
        · simp [hEq]
        · simp [hRest, hEq, Tagged.setTag]

theorem initialTags_wellTagged
    (h : Heap O)
    (m : Addresses)
    (refClasses : List O)
    (target : O)
    (tags : GcTags) :
    ∃ tags',
      (initialTags m refClasses target tags).2.user =
          some tags' ∧
        WellTagged h m refClasses target
          (initialTags m refClasses target tags).1
          (initialTags m refClasses target tags).2.tag
          tags' := by
  let a : jlong := tags.store.nextAddress m.alloc
  have hReserved :
      a ∉ [0, rootTag, m.weakSoftReferenceTag] :=
    Store.nextAddress_not_reserved m.alloc
  simp only [List.mem_cons, List.not_mem_nil, or_false,
    not_or] at hReserved
  rcases hReserved with ⟨hNeZero, hNeRoot, hNeShared⟩
  let tag : O → jlong := fun o =>
    if o = target then a
    else if o ∈ refClasses then m.weakSoftReferenceTag
    else 0
  have hTag :
      (initialTags m refClasses target tags).2.tag = tag := by
    funext o
    change Function.update (setTagsForReferences refClasses
      m.weakSoftReferenceTag ⟨fun _ => 0, ()⟩).tag target a
        o = tag o
    by_cases hEq : o = target
    · simp [tag, hEq]
    · rw [Function.update_of_ne hEq,
        setTagsForReferences_tag]
      simp [tag, hEq]
  have hCases :
      ∀ o, (o = target ∧ tag o = a) ∨
        (Carrier refClasses target o ∧
          tag o = m.weakSoftReferenceTag) ∨
        (¬ Carrier refClasses target o ∧ o ≠ target ∧
          tag o = 0) := by
    intro o
    by_cases hEq : o = target
    · exact Or.inl ⟨hEq, if_pos hEq⟩
    · by_cases hMem : o ∈ refClasses
      · exact Or.inr (Or.inl ⟨⟨hMem, hEq⟩,
          by simp [tag, hEq, hMem]⟩)
      · exact Or.inr (Or.inr ⟨fun hC => hMem hC.1, hEq,
          by simp [tag, hEq, hMem]⟩)
  have hGet :
      ∀ b, (tags.create m).2.store.get b =
        if b = a then some GcTag.initial
        else tags.store.get b :=
    fun b => Store.get_create m.alloc b
  refine ⟨(tags.create m).2, rfl, ?_⟩
  rw [hTag]
  change WellTagged h m refClasses target a tag
    (tags.create m).2
  constructor
  · intro o
    rcases hCases o with ⟨hEq, hA⟩ | ⟨hC, hA⟩ |
      ⟨hC, _, hA⟩
    · rw [hA]
      constructor
      · intro hShared
        exact absurd hShared hNeShared
      · intro hC
        exact absurd hEq hC.2
    · exact ⟨fun _ => hC, fun _ => hA⟩
    · rw [hA]
      constructor
      · intro hShared
        exact absurd hShared.symm m.ne_zero
      · intro hCarrier
        exact absurd hCarrier hC
  · exact if_pos rfl
  · exact hNeZero
  · intro o
    rcases hCases o with ⟨_, hA⟩ | ⟨_, hA⟩ | ⟨_, _, hA⟩
    · rw [hA]
      exact hNeRoot
    · rw [hA]
      exact m.ne_root
    · rw [hA]
      decide
  · intro o
    rcases hCases o with ⟨_, hA⟩ | ⟨_, hA⟩ | ⟨_, _, hA⟩
    · refine Or.inr (Or.inr ?_)
      rw [hA, hGet, if_pos rfl]
      exact Option.some_ne_none _
    · exact Or.inr (Or.inl hA)
    · exact Or.inl hA
  · intro o p hNe hNotShared hSame
    have hTarget :
        ∀ q, tag q ≠ 0 → tag q ≠ m.weakSoftReferenceTag →
          q = target := by
      intro q hQ hShared
      rcases hCases q with ⟨hEq, _⟩ | ⟨_, hA⟩ | ⟨_, _, hA⟩
      · exact hEq
      · exact absurd hA hShared
      · exact absurd hA hQ
    rw [hTarget o hNe hNotShared,
      hTarget p (hSame ▸ hNe) (hSame ▸ hNotShared)]
  · intro o t hNe hNotShared hGetO info hMem
    rcases hCases o with ⟨_, hA⟩ | ⟨_, hA⟩ | ⟨_, _, hA⟩
    · rw [hA, hGet, if_pos rfl] at hGetO
      rw [← Option.some.inj hGetO] at hMem
      exact absurd hMem List.not_mem_nil
    · exact absurd hA hNotShared
    · exact absurd hA hNe

theorem CollectInvariant.init
    (h : Heap O)
    (m : Addresses)
    (refClasses : List O)
    (target : O)
    (tags : GcTags) :
    CollectInvariant h m refClasses target
      (initialTags m refClasses target tags).1
      (h.traversal none
        (initialTags m refClasses target tags).2) :=
  ⟨initialTags_wellTagged h m refClasses target tags,
    fun _ hMem => Or.inl hMem⟩

/- What an uninterrupted traversal leaves behind. -/
theorem createTags_wellTagged
    (m : Addresses)
    (tags : GcTags)
    {reports : List (Report O)}
    (hReports :
      h.FollowReferences none (collectPaths m)
        (initialTags m refClasses target tags).2 reports) :
    ∃ tags',
      (createTags h m refClasses target tags reports).2.user =
          some tags' ∧
        WellTagged h m refClasses target
          (createTags h m refClasses target tags reports).1
          (createTags h m refClasses target tags
            reports).2.tag tags' := by
  have hFinal :=
    Worklist.replay_invariant
      (CollectInvariant h m refClasses target
        (initialTags m refClasses target tags).1)
      (fun _ _ hInvariant hPending =>
        (hInvariant.report hPending).2)
      hReports.1.1
      (CollectInvariant.init h m refClasses target tags)
  exact hFinal.user

theorem exists_reports
    [Fintype O]
    (h : Heap O)
    (m : Addresses)
    (refClasses : List O)
    (target : O)
    (tags : GcTags) :
    ∃ reports,
      h.FollowReferences none (collectPaths m)
        (initialTags m refClasses target tags).2 reports :=
  h.exists_followReferences_of_invariant none
    (CollectInvariant h m refClasses target
      (initialTags m refClasses target tags).1)
    (fun _ _ hInvariant hPending =>
      (hInvariant.report hPending).2)
    (fun _ _ hInvariant hPending =>
      (hInvariant.report hPending).1)
    _ (CollectInvariant.init h m refClasses target tags)

end Step

end Roots

end MemoryAgent
