import MemoryAgent.Roots.ClosestGcRoots
import MemoryAgent.Roots.RecordedReferences

/-
  Sequences of searches for roots, each completed or stopped
  on the way, and cleaned up by `cleanHeap`.  All searches
  share the memory of the tags, with the one static tag.

  Key definitions include:
    * `Roots.execute`
    * `Roots.run`
    * `Roots.ReportsNoShared`
    * `Roots.Followed`

  Main results:
    * `Roots.Invariant.execute`
    * `Roots.paths_isolated`
-/

------------------------------------------------------------
-- Cleaning Up
------------------------------------------------------------

namespace MemoryAgent

namespace Roots

open RecordStore ClosestGcRoots

/-
  `GcTag::cleanTag`: nothing, if the tag was deleted before.
  For the null pointer the tag made for it is deleted.
-/
def GcTags.cleanTag
    (m : Addresses)
    (tags : GcTags)
    (tagPtr : jlong) : Option GcTags :=
  if tagPtr = 0 then
    some { tags with
      rootsTagBalance := tags.rootsTagBalance - 1 }
  else if (tags.pointerToGcTag m tagPtr).isSome = true then
    some { tags with
      store := tags.store.delete tagPtr
      rootsTagBalance := tags.rootsTagBalance - 1 }
  else
    none

/-
  `freeObjectCallback`, with the static tag as the ignored
  one.
-/
def freeObjectCallback
    (m : Addresses)
    (tagPtr : jlong)
    (tags : GcTags) : Option (jlong × GcTags) :=
  if tagPtr = m.weakSoftReferenceTag then
    some (0, tags)
  else do
    let tags ← tags.cleanTag m tagPtr
    some (0, tags)

------------------------------------------------------------
-- Runs
------------------------------------------------------------

section Machine

variable {O : Type}
variable [DecidableEq O]

/-
  How far a run has come: in the traversal, in the search
  and the construction of the result, or in `cleanHeap`.
-/
inductive Point (O : Type) where
  | idle
  | collecting
      (start : jlong)
      (pending : List (Report O))
      (visited : List O)
  | searching (start : jlong)
  | cleaning (todo : List O)
deriving DecidableEq

structure Session (O : Type) where
  heap : Heap O
  data : Tagged O jlong (Option GcTags)
  point : Point O

/- No tag is in memory but the static one. -/
def GcTags.initial : GcTags where
  weakSoftReferenceTag := GcTag.ofWeakSoftReachable true
  store := Store.empty
  rootsTagBalance := 0

def Session.initial
    (heap : Heap O) : Session O :=
  ⟨heap, ⟨fun _ => 0, some GcTags.initial⟩, .idle⟩

/-
  One step.  `stop` ends the traversal or interrupts it, and
  `clean` ends or interrupts what follows; the list is the
  order in which the tagged objects are passed.
-/
inductive Command (O : Type) where
  | start (heap : Heap O) (refClasses : List O) (target : O)
  | report (r : Report O)
  | stop
  | clean (order : List O)
  | free
  | finish

/- The tags on the reference classes and on the target. -/
def tagTarget
    (m : Addresses)
    (refClasses : List O)
    (target : O)
    (data : Tagged O jlong (Option GcTags)) :
    Option (jlong × Tagged O jlong (Option GcTags)) :=
  data.user.map (fun tags =>
    let s :=
      setTagsForReferences refClasses m.weakSoftReferenceTag
        ⟨data.tag, ()⟩
    let (tag, tags) := tags.create m
    (tag, ⟨(s.setTag target tag).tag, some tags⟩))

/- One step, if the command is possible. -/
def execute
    [Fintype O]
    (m : Addresses)
    (s : Session O) : Command O → Option (Session O)
| .start heap refClasses target =>
    match s.point with
    | .idle =>
        (tagTarget m refClasses target s.data).map
          (fun next =>
            ⟨heap, next.2,
              .collecting next.1 heap.rootReports []⟩)
    | _ => none
| .report r =>
    match s.point with
    | .collecting start pending visited =>
        -- Roots are reported before the other references.
        if r ∈ pending ∧
            (r.referrer ≠ none →
              ∀ q ∈ pending, q.referrer ≠ none) then
          let next :=
            Worklist.report s.heap.graph
              (s.heap.invoke (collectPaths m)) r
              ⟨pending, visited, s.data⟩
          some ⟨s.heap, next.data,
            .collecting start next.pending next.expanded⟩
        else
          none
    | _ => none
| .stop =>
    match s.point with
    | .collecting start _ _ =>
        some ⟨s.heap, s.data, .searching start⟩
    | _ => none
| .clean order =>
    match s.point with
    | .searching _ =>
        if order.Nodup ∧
            ∀ o, o ∈ order ↔ s.data.tag o ≠ 0 then
          some ⟨s.heap, s.data, .cleaning order⟩
        else
          none
    | _ => none
| .free =>
    match s.point with
    | .cleaning (o :: todo) =>
        match s.data.user.bind
            (freeObjectCallback m (s.data.tag o)) with
        | some (a, tags) =>
            some ⟨s.heap,
              ⟨Function.update s.data.tag o a, some tags⟩,
              .cleaning todo⟩
        | none =>
            some ⟨s.heap, ⟨s.data.tag, none⟩,
              .cleaning todo⟩
    | _ => none
| .finish =>
    match s.point with
    | .cleaning [] => some ⟨s.heap, s.data, .idle⟩
    | _ => none

variable [Fintype O]

/- A sequence of runs, the last of them up to any step. -/
def run
    (m : Addresses)
    (s : Session O)
    (commands : List (Command O)) : Option (Session O) :=
  commands.foldlM (execute m) s

/- The command reports no referee with the static tag. -/
def ReportsNoShared
    (m : Addresses)
    (s : Session O) : Command O → Prop
| .report r => s.data.tag r.referee ≠ m.weakSoftReferenceTag
| _ => True

instance
    (m : Addresses)
    (s : Session O)
    (command : Command O) :
    Decidable (ReportsNoShared m s command) := by
  cases command <;> unfold ReportsNoShared <;>
    infer_instance

/- No step of a run reports such a referee. -/
def NoneShared
    (m : Addresses) :
    Session O → List (Command O) → Prop
| _, [] => True
| s, command :: commands =>
    ReportsNoShared m s command ∧
      match execute m s command with
      | none => True
      | some s' => NoneShared m s' commands

instance decidableNoneShared
    (m : Addresses) :
    (s : Session O) → (commands : List (Command O)) →
      Decidable (NoneShared m s commands)
| _, [] => isTrue trivial
| s, command :: commands =>
    have :
        Decidable
          (match execute m s command with
          | none => True
          | some s' => NoneShared m s' commands) :=
      match execute m s command with
      | none => isTrue trivial
      | some s' => decidableNoneShared m s' commands
    inferInstanceAs (Decidable (_ ∧ _))

theorem NoneShared.tail
    {m : Addresses}
    {s s' : Session O}
    {command : Command O}
    {commands : List (Command O)}
    (hNone : NoneShared m s (command :: commands))
    (hStep : execute m s command = some s') :
    NoneShared m s' commands := by
  have hRest := hNone.2
  rw [hStep] at hRest
  exact hRest

/-
  The tags that the search and the construction of the
  result may follow from `start`.
-/
def Followed
    (m : Addresses)
    (tags : GcTags)
    (start a : jlong) : Prop :=
  Relation.ReflTransGen (BackReference (tags.recorded m))
    start a

end Machine

------------------------------------------------------------
-- What a Callback Changes
------------------------------------------------------------

section Callbacks

variable {m : Addresses}
variable {tags tags' tags'' : GcTags}
variable {a b : jlong}

/- The static tag and the tags at other addresses stay. -/
structure OnlyAt
    (m : Addresses)
    (a : jlong)
    (tags tags' : GcTags) : Prop where
  shared :
    tags'.weakSoftReferenceTag = tags.weakSoftReferenceTag
  others :
    ∀ b, b ≠ a → tags'.store.get b = tags.store.get b

theorem OnlyAt.trans
    (hFirst : OnlyAt m a tags tags')
    (hSecond : OnlyAt m a tags' tags'') :
    OnlyAt m a tags tags'' :=
  ⟨hSecond.shared.trans hFirst.shared,
    fun b hNe =>
      (hSecond.others b hNe).trans (hFirst.others b hNe)⟩

theorem onlyAt_modify
    {f : GcTag → GcTag}
    (hNe : a ≠ m.weakSoftReferenceTag)
    (hModify : tags.modify m a f = some tags') :
    OnlyAt m a tags tags' := by
  unfold GcTags.modify at hModify
  by_cases hZero : a = 0
  · rw [if_pos hZero] at hModify
    cases hModify
    exact ⟨rfl, fun _ _ => rfl⟩
  · rw [if_neg hZero, if_neg hNe] at hModify
    rcases Option.map_eq_some_iff.mp hModify with
      ⟨t, hGet, hEq⟩
    cases hEq
    refine ⟨rfl, ?_⟩
    intro b hNeB
    have hLive : tags.store.get a ≠ none := by
      rw [hGet]
      exact Option.some_ne_none t
    exact (Store.get_set hLive b).trans (if_neg hNeB)

theorem onlyAt_recordReferrer
    {args : ReferenceArguments jlong}
    (hNe : a ≠ m.weakSoftReferenceTag)
    (hRecord :
      recordReferrer m args a tags = some tags') :
    OnlyAt m a tags tags' := by
  unfold recordReferrer at hRecord
  cases hTag : args.referrerTag with
  | none =>
      rw [hTag] at hRecord
      exact onlyAt_modify hNe hRecord
  | some referrerTag =>
      rw [hTag] at hRecord
      simp only [Option.bind_eq_bind,
        Option.bind_eq_some_iff] at hRecord
      rcases hRecord with ⟨t, _, next, hState, hPush⟩
      unfold GcTags.updateState at hState
      rw [if_pos hNe] at hState
      exact (onlyAt_modify hNe hState).trans
        (onlyAt_modify hNe hPush)

/- A new tag has an address of its own. -/
theorem onlyAt_new
    (t : GcTag) :
    OnlyAt m (tags.new m t).1 tags (tags.new m t).2 :=
  ⟨rfl, fun b hNe =>
    (Store.get_create m.alloc b).trans (if_neg hNe)⟩

theorem new_not_reserved
    (t : GcTag) :
    (tags.new m t).1 ≠ 0 ∧
      (tags.new m t).1 ≠ m.weakSoftReferenceTag := by
  have hReserved :
      (tags.new m t).1 ∉
        [0, rootTag, m.weakSoftReferenceTag] :=
    Store.nextAddress_not_reserved m.alloc
  constructor
  · intro hEq
    exact hReserved (hEq ▸ List.mem_cons_self)
  · intro hEq
    exact hReserved (hEq ▸ by simp)

/-
  The callback changes the tag of the referee alone, which
  is the one it had or a new one.
-/
theorem onlyAt_collectPath
    {args : ReferenceArguments jlong}
    (hNe : args.tag ≠ m.weakSoftReferenceTag)
    (hSome : collectPath m args tags = some (a, tags')) :
    OnlyAt m a tags tags' ∧ a ≠ 0 ∧
      a ≠ m.weakSoftReferenceTag ∧
      (args.tag = a ∨ args.tag = 0) := by
  have hRest :
      ∀ next c,
        (do
          let next ← recordReferrer m args c next
          let next ← next.setVisited m c
          some (c, next)) = some (a, tags') →
        c = a ∧ (a ≠ m.weakSoftReferenceTag →
          OnlyAt m a next tags') := by
    intro next c hBoth
    simp only [Option.bind_eq_bind,
      Option.bind_eq_some_iff] at hBoth
    rcases hBoth with
      ⟨recorded, hRecord, visited, hVisit, hEq⟩
    cases hEq
    refine ⟨rfl, fun hNeA => ?_⟩
    exact (onlyAt_recordReferrer hNeA hRecord).trans
      (onlyAt_modify hNeA hVisit)
  unfold collectPath at hSome
  split at hSome
  · next hZero =>
      rcases Option.bind_eq_some_iff.mp hSome with
        ⟨⟨c, next⟩, hCreate, hBoth⟩
      have hNew : ∃ t, tags.new m t = (c, next) := by
        unfold GcTags.createForClass at hCreate
        split at hCreate
        · rcases Option.bind_eq_some_iff.mp hCreate with
            ⟨t, _, hEq⟩
          exact ⟨_, Option.some.inj hEq⟩
        · exact ⟨_, Option.some.inj hCreate⟩
      rcases hNew with ⟨t, hNew⟩
      rcases hRest next c hBoth with ⟨rfl, hOnly⟩
      have hReserved := @new_not_reserved m tags t
      have hOnlyNew := @onlyAt_new m tags t
      rw [hNew] at hReserved hOnlyNew
      exact ⟨hOnlyNew.trans (hOnly hReserved.2),
        hReserved.1, hReserved.2, Or.inr hZero⟩
  · next hZero =>
      rcases hRest tags args.tag hSome with ⟨hEq, hOnly⟩
      rw [hEq] at hNe hZero
      exact ⟨hOnly hNe, hZero, hNe, Or.inl hEq⟩

end Callbacks

------------------------------------------------------------
-- Invariants
------------------------------------------------------------

section Invariants

variable {O : Type}
variable {m : Addresses}
variable {tag : O → jlong}
variable {tags tags' : GcTags}
variable {a : jlong}
variable {o : O}

/-
  The static tag has no back references, and every tag in
  memory belongs to one object.
-/
structure Kept
    (m : Addresses)
    (tag : O → jlong)
    (tags : GcTags) : Prop where
  shared_empty : tags.weakSoftReferenceTag.backRefs = []
  carried :
    ∀ a, tags.store.get a ≠ none →
      a ≠ 0 ∧ a ≠ m.weakSoftReferenceTag ∧ ∃ o, tag o = a
  pointer : ∀ o, IsPointer m tags (tag o)
  inj :
    ∀ o p, tag o ≠ 0 → tag o ≠ m.weakSoftReferenceTag →
      tag o = tag p → o = p

def PointInvariant
    (m : Addresses)
    (h : Heap O)
    (tag : O → jlong)
    (tags : GcTags) : Point O → Prop
| .idle => ∀ o, tag o = 0
| .collecting start pending _ =>
    (∃ refClasses target,
      WellTagged h m refClasses target start tag tags) ∧
      ∀ r ∈ pending, Reportable h tag r
| .searching start =>
    ∃ refClasses target,
      WellTagged h m refClasses target start tag tags
| .cleaning todo =>
    todo.Nodup ∧ ∀ o, o ∈ todo ↔ tag o ≠ 0

structure Invariant
    (m : Addresses)
    (s : Session O)
    (tags : GcTags) : Prop where
  user : s.data.user = some tags
  kept : Kept m s.data.tag tags
  point : PointInvariant m s.heap s.data.tag tags s.point

variable [DecidableEq O]

/- The tag of one object changed, or it got a new one. -/
theorem Kept.onlyAt
    (hKept : Kept m tag tags)
    (hOnly : OnlyAt m a tags tags')
    (hZero : a ≠ 0)
    (hNe : a ≠ m.weakSoftReferenceTag)
    (hTag : tag o = a ∨ tag o = 0)
    (hPointer :
      ∀ p, IsPointer m tags' (Function.update tag o a p))
    (hInj :
      ∀ p q, Function.update tag o a p ≠ 0 →
        Function.update tag o a p ≠
            m.weakSoftReferenceTag →
          Function.update tag o a p =
              Function.update tag o a q →
            p = q) :
    Kept m (Function.update tag o a) tags' := by
  refine ⟨?_, ?_, hPointer, hInj⟩
  · rw [hOnly.shared]
    exact hKept.shared_empty
  · intro b hLive
    by_cases hEq : b = a
    · rw [hEq]
      exact ⟨hZero, hNe, o, Function.update_self _ _ _⟩
    · rw [hOnly.others b hEq] at hLive
      rcases hKept.carried b hLive with
        ⟨hZeroB, hNeB, p, hP⟩
      refine ⟨hZeroB, hNeB, p, ?_⟩
      have hNeP : p ≠ o := by
        intro hSame
        rw [hSame] at hP
        rcases hTag with hOld | hNone
        · exact hEq (hP.symm.trans hOld)
        · exact hZeroB (hP.symm.trans hNone)
      rw [Function.update_of_ne hNeP]
      exact hP

/- An object without tag shares none. -/
theorem inj_update_zero
    {shared : jlong}
    (hInj :
      ∀ p q, tag p ≠ 0 → tag p ≠ shared →
        tag p = tag q → p = q)
    (p q : O)
    (hZero : Function.update tag o 0 p ≠ 0)
    (hNe : Function.update tag o 0 p ≠ shared)
    (hSame :
      Function.update tag o 0 p =
        Function.update tag o 0 q) :
    p = q := by
  have hNeP : p ≠ o := by
    intro hEq
    rw [hEq, Function.update_self] at hZero
    exact hZero rfl
  have hNeQ : q ≠ o := by
    intro hEq
    rw [hEq, Function.update_self] at hSame
    exact hZero hSame
  rw [Function.update_of_ne hNeP] at hZero hNe hSame
  rw [Function.update_of_ne hNeQ] at hSame
  exact hInj p q hZero hNe hSame

/- An object is freed, and with it the tag it carries. -/
theorem Kept.freeObjectCallback
    (hKept : Kept m tag tags)
    (hTag : tag o ≠ 0) :
    ∃ tags',
      Roots.freeObjectCallback m (tag o) tags =
          some (0, tags') ∧
        Kept m (Function.update tag o 0) tags' := by
  unfold Roots.freeObjectCallback GcTags.cleanTag
  by_cases hShared : tag o = m.weakSoftReferenceTag
  · rw [if_pos hShared]
    refine ⟨tags, rfl, hKept.shared_empty, ?_, ?_, ?_⟩
    · intro b hLive
      rcases hKept.carried b hLive with ⟨hZero, hNe, p, hP⟩
      refine ⟨hZero, hNe, p, ?_⟩
      have hNeP : p ≠ o := by
        intro hSame
        rw [hSame] at hP
        exact hNe (hP.symm.trans hShared)
      rw [Function.update_of_ne hNeP]
      exact hP
    · intro p
      by_cases hEq : p = o
      · rw [hEq, Function.update_self]
        exact Or.inl rfl
      · rw [Function.update_of_ne hEq]
        exact hKept.pointer p
    · exact inj_update_zero hKept.inj
  · rcases exists_pointerToGcTag (hKept.pointer o) with
      ⟨t, hGet⟩
    rw [if_neg hShared, if_neg hTag, hGet]
    refine ⟨_, rfl, hKept.shared_empty, ?_, ?_, ?_⟩
    · intro b hLive
      dsimp only at hLive
      rw [Store.get_delete] at hLive
      by_cases hEq : b = tag o
      · rw [if_pos hEq] at hLive
        exact absurd rfl hLive
      · rw [if_neg hEq] at hLive
        rcases hKept.carried b hLive with
          ⟨hZero, hNe, p, hP⟩
        refine ⟨hZero, hNe, p, ?_⟩
        have hNeP : p ≠ o := by
          intro hSame
          rw [hSame] at hP
          exact hEq hP.symm
        rw [Function.update_of_ne hNeP]
        exact hP
    · intro p
      by_cases hEq : p = o
      · rw [hEq, Function.update_self]
        exact Or.inl rfl
      · rw [Function.update_of_ne hEq]
        refine (hKept.pointer p).imp_right
          (Or.imp_right ?_)
        intro hLive
        dsimp only
        rw [Store.get_delete, if_neg]
        · exact hLive
        · intro hSame
          exact hEq
            (hKept.inj o p hTag hShared hSame.symm).symm
    · exact inj_update_zero hKept.inj

/- What the callback leaves when no deleted tag was used. -/
theorem invoke_collectPaths_some
    {h : Heap O}
    {data : Tagged O jlong (Option GcTags)}
    {r : Report O}
    (hUser : data.user = some tags)
    (hNext :
      (h.invoke (collectPaths m) r data).1.user =
        some tags') :
    ∃ a,
      collectPath m (h.arguments r data) tags =
          some (a, tags') ∧
        (h.invoke (collectPaths m) r data).1.tag =
          Function.update data.tag r.referee a := by
  rw [Heap.invoke_user] at hNext
  rw [Heap.invoke_tag]
  unfold collectPaths at hNext ⊢
  rw [hUser, Option.bind_some] at hNext ⊢
  cases hSome : collectPath m (h.arguments r data) tags with
  | none =>
      rw [hSome] at hNext
      cases hNext
  | some answer =>
      rcases answer with ⟨a, next⟩
      rw [hSome] at hNext
      cases hNext
      exact ⟨a, rfl, rfl⟩

/- The first tags of a run, on objects without tags. -/
theorem Kept.tagTarget
    {h : Heap O}
    {data : Tagged O jlong (Option GcTags)}
    (hKept : Kept m data.tag tags)
    (hUser : data.user = some tags)
    (hZero : ∀ o, data.tag o = 0)
    (refClasses : List O)
    (target : O) :
    ∃ start next tags',
      Roots.tagTarget m refClasses target data =
          some (start, next) ∧
        next.user = some tags' ∧
        Kept m next.tag tags' ∧
        WellTagged h m refClasses target start next.tag
          tags' := by
  have hTag : data.tag = fun _ => 0 := funext hZero
  have hEq :
      Roots.tagTarget m refClasses target data =
        some (initialTags m refClasses target tags) := by
    unfold Roots.tagTarget
    rw [hUser, hTag]
    rfl
  rcases initialTags_wellTagged h m refClasses target tags
    with ⟨tags', hUser', hTagged⟩
  refine ⟨_, _, tags', hEq, hUser', ?_, hTagged⟩
  have hCreated : (tags.create m).2 = tags' :=
    Option.some.inj hUser'
  have hOnly := @onlyAt_new m tags GcTag.initial
  have hReserved := @new_not_reserved m tags GcTag.initial
  refine ⟨?_, ?_, hTagged.pointer, hTagged.inj⟩
  · rw [← hCreated]
    exact hKept.shared_empty
  · intro a hLive
    rw [← hCreated] at hLive
    by_cases hEqA : a = (tags.create m).1
    · rw [hEqA]
      exact ⟨hReserved.1, hReserved.2, target,
        hTagged.target_tag⟩
    · have hOld := hOnly.others a hEqA
      change (tags.create m).2.store.get a = _ at hOld
      rw [hOld] at hLive
      rcases hKept.carried a hLive with ⟨hNe, _, p, hP⟩
      rw [hZero p] at hP
      exact absurd hP.symm hNe

/- A reported reference changes the tag of its referee. -/
theorem Invariant.report
    {h : Heap O}
    {data : Tagged O jlong (Option GcTags)}
    {start : jlong}
    {pending : List (Report O)}
    {visited : List O}
    {r : Report O}
    (hInvariant :
      Invariant m ⟨h, data, .collecting start pending visited⟩
        tags)
    (hMem : r ∈ pending)
    (hNone : data.tag r.referee ≠ m.weakSoftReferenceTag) :
    let next :=
      Worklist.report h.graph (h.invoke (collectPaths m)) r
        ⟨pending, visited, data⟩
    ∃ tags',
      Invariant m
        ⟨h, next.data,
          .collecting start next.pending next.expanded⟩
        tags' := by
  intro next
  rcases hInvariant with ⟨hUser, hKept, hPoint⟩
  rcases hPoint with ⟨⟨refClasses, target, hTagged⟩, hPending⟩
  dsimp only at hUser hKept hTagged hPending
  have hCollect :
      CollectInvariant h m refClasses target start
        ⟨pending, visited, data⟩ :=
    ⟨⟨tags, hUser, hTagged⟩, hPending⟩
  have hAfter := (hCollect.report hMem).2
  rcases hAfter.user with ⟨tags', hUser', hTagged'⟩
  refine ⟨tags', hUser', ?_, ⟨refClasses, target, hTagged'⟩,
    hAfter.pending⟩
  dsimp only [next]
  rw [Worklist.report_data] at hUser' hTagged' ⊢
  rcases invoke_collectPaths_some hUser hUser' with
    ⟨a, hSome, hTag⟩
  dsimp only at hTag hTagged' ⊢
  rw [hTag] at hTagged' ⊢
  have hTagNe :
      (h.arguments r data).tag ≠ m.weakSoftReferenceTag :=
    hNone
  rcases onlyAt_collectPath hTagNe hSome with
    ⟨hOnly, hZero, hNe, hOld⟩
  exact hKept.onlyAt hOnly hZero hNe hOld hTagged'.pointer
    hTagged'.inj

/- The tag of a freed object leaves the memory with it. -/
theorem Invariant.free
    {h : Heap O}
    {data : Tagged O jlong (Option GcTags)}
    {o : O}
    {todo : List O}
    (hInvariant :
      Invariant m ⟨h, data, .cleaning (o :: todo)⟩ tags) :
    ∃ a tags',
      freeObjectCallback m (data.tag o) tags =
          some (a, tags') ∧
        Invariant m
          ⟨h, ⟨Function.update data.tag o a, some tags'⟩,
            .cleaning todo⟩
          tags' := by
  rcases hInvariant with ⟨hUser, hKept, hNodup, hTodo⟩
  dsimp only at hUser hKept hTodo
  have hTag : data.tag o ≠ 0 :=
    (hTodo o).mp List.mem_cons_self
  rcases hKept.freeObjectCallback hTag with
    ⟨tags', hFree, hKept'⟩
  rcases List.nodup_cons.mp hNodup with ⟨hNotMem, hNodup'⟩
  refine ⟨_, tags', hFree, rfl, hKept', hNodup', ?_⟩
  intro p
  dsimp only
  by_cases hEq : p = o
  · rw [hEq, Function.update_self]
    exact iff_of_false hNotMem (fun h => h rfl)
  · rw [Function.update_of_ne hEq, ← hTodo p, List.mem_cons]
    exact (or_iff_right hEq).symm

variable [Fintype O]

/- Every step keeps the invariant. -/
theorem Invariant.execute
    {s s' : Session O}
    {command : Command O}
    (hInvariant : Invariant m s tags)
    (hNone : ReportsNoShared m s command)
    (hStep : Roots.execute m s command = some s') :
    ∃ tags', Invariant m s' tags' := by
  rcases s with ⟨h, data, point⟩
  have hUser := hInvariant.user
  have hKept := hInvariant.kept
  have hPoint := hInvariant.point
  dsimp only at hUser hKept hPoint
  cases command with
  | start heap refClasses target =>
      cases point with
      | idle =>
          rcases hKept.tagTarget (h := heap) hUser hPoint
              refClasses target with
            ⟨start, next, tags', hEq, hUser', hKept',
              hTagged⟩
          simp only [Roots.execute, hEq, Option.map_some]
            at hStep
          cases hStep
          exact ⟨tags', hUser', hKept',
            ⟨refClasses, target, hTagged⟩,
            fun r hMem => Or.inl hMem⟩
      | collecting start pending visited => cases hStep
      | searching start => cases hStep
      | cleaning todo => cases hStep
  | report r =>
      cases point with
      | idle => cases hStep
      | searching start => cases hStep
      | cleaning todo => cases hStep
      | collecting start pending visited =>
          simp only [Roots.execute] at hStep
          split at hStep
          · next hMay =>
              cases hStep
              exact hInvariant.report hMay.1 hNone
          · cases hStep
  | stop =>
      cases point with
      | idle => cases hStep
      | searching start => cases hStep
      | cleaning todo => cases hStep
      | collecting start pending visited =>
          cases hStep
          exact ⟨tags, hUser, hKept, hPoint.1⟩
  | clean order =>
      cases point with
      | idle => cases hStep
      | collecting start pending visited => cases hStep
      | cleaning todo => cases hStep
      | searching start =>
          simp only [Roots.execute] at hStep
          split at hStep
          · next hOrder =>
              cases hStep
              exact ⟨tags, hUser, hKept, hOrder⟩
          · cases hStep
  | free =>
      cases point with
      | idle => cases hStep
      | collecting start pending visited => cases hStep
      | searching start => cases hStep
      | cleaning todo =>
          cases todo with
          | nil => cases hStep
          | cons o todo =>
              rcases hInvariant.free with
                ⟨a, tags', hFree, hAfter⟩
              simp only [Roots.execute, hUser,
                Option.bind_some, hFree] at hStep
              cases hStep
              exact ⟨tags', hAfter⟩
  | finish =>
      cases point with
      | idle => cases hStep
      | collecting start pending visited => cases hStep
      | searching start => cases hStep
      | cleaning todo =>
          cases todo with
          | nil =>
              cases hStep
              refine ⟨tags, hUser, hKept, ?_⟩
              intro o
              by_contra hNe
              exact absurd ((hPoint.2 o).mpr hNe)
                List.not_mem_nil
          | cons o todo => cases hStep

/- Every run keeps the invariant. -/
theorem Invariant.run
    {s s' : Session O}
    (commands : List (Command O))
    (hInvariant : Invariant m s tags)
    (hNone : NoneShared m s commands)
    (hRun : Roots.run m s commands = some s') :
    ∃ tags', Invariant m s' tags' := by
  induction commands generalizing s tags with
  | nil =>
      cases hRun
      exact ⟨tags, hInvariant⟩
  | cons command commands ih =>
      unfold Roots.run at hRun
      rw [List.foldlM_cons] at hRun
      rcases Option.bind_eq_some_iff.mp hRun with
        ⟨t, hStep, hRest⟩
      rcases hInvariant.execute hNone.1 hStep with
        ⟨next, hNext⟩
      exact ih hNext (hNone.tail hStep) hRest

omit [DecidableEq O] [Fintype O] in
theorem Invariant.initial
    (heap : Heap O) :
    Invariant m (Session.initial heap) GcTags.initial := by
  refine ⟨rfl, ⟨rfl, ?_, fun _ => Or.inl rfl, ?_⟩,
    fun _ => rfl⟩
  · intro a hLive
    exact absurd rfl hLive
  · intro o p hNe
    exact absurd rfl hNe

omit [DecidableEq O] [Fintype O] in
/- Followed tags are those of objects. -/
theorem Kept.followed
    {h : Heap O}
    {refClasses : List O}
    {target : O}
    {start : jlong}
    (hKept : Kept m tag tags)
    (hTagged :
      WellTagged h m refClasses target start tag tags)
    (hFollowed : Followed m tags start a) :
    a ≠ 0 ∧ ∃ o, tag o = a := by
  induction hFollowed with
  | refl =>
      exact ⟨hTagged.start_ne_zero, target,
        hTagged.target_tag⟩
  | @tail b c _ hBack ih =>
      rcases ih with ⟨hZero, o, hO⟩
      rcases hBack with ⟨hNotRoot, info, hMem, hInfo⟩
      have hNotShared : b ≠ m.weakSoftReferenceTag := by
        intro hEq
        have hRefs : tags.recorded m b = [] := by
          rw [GcTags.recorded_eq]
          unfold GcTags.pointerToGcTag
          rw [if_neg hZero, if_pos hEq]
          exact hKept.shared_empty
        rw [hRefs] at hMem
        exact absurd hMem List.not_mem_nil
      have hGet :
          ∃ t, tags.store.get b = some t ∧
            info ∈ t.backRefs := by
        rw [GcTags.recorded_eq] at hMem
        unfold GcTags.pointerToGcTag at hMem
        rw [if_neg hZero, if_neg hNotShared] at hMem
        cases hB : tags.store.get b with
        | none =>
            rw [hB] at hMem
            exact absurd hMem List.not_mem_nil
        | some t =>
            rw [hB] at hMem
            exact ⟨t, rfl, hMem⟩
      rcases hGet with ⟨t, hT, hRefs⟩
      rw [← hO] at hZero hNotShared hT
      rcases hTagged.recorded o t hZero hNotShared hT info
          hRefs with ⟨r, _, _, hEq⟩ |
        ⟨p, _, hNe, r, _, _, hEq⟩
      · rw [hEq, createReferenceInfo_tag] at hInfo
        exact absurd hInfo.symm hNotRoot
      · rw [hEq, createReferenceInfo_tag] at hInfo
        rw [hInfo] at hNe
        exact ⟨hNe, p, hInfo⟩

omit [DecidableEq O] [Fintype O] in
/- Between two runs no tag is left. -/
theorem Kept.get_eq_none
    (hKept : Kept m tag tags)
    (hZero : ∀ o, tag o = 0)
    (a : jlong) :
    tags.store.get a = none := by
  by_contra hLive
  rcases hKept.carried a hLive with ⟨hNe, _, o, hO⟩
  exact hNe (hO.symm.trans (hZero o))

end Invariants

------------------------------------------------------------
-- Isolation
------------------------------------------------------------

/-
  In sequences of runs that never report a referee with the
  static tag, no deleted tag is used, and no back reference
  is left in the static tag.  Every tag in memory belongs to
  an object of the current run, and so does every tag that
  the search or the construction of its result may follow.
  Between two runs every tag that was created was deleted,
  exactly once.
-/
theorem paths_isolated
    {O : Type}
    [Fintype O]
    [DecidableEq O]
    (m : Addresses)
    (heap : Heap O)
    (commands : List (Command O))
    (s : Session O)
    (hNone : NoneShared m (.initial heap) commands)
    (hRun : run m (.initial heap) commands = some s) :
    ∃ tags, s.data.user = some tags ∧
      tags.weakSoftReferenceTag.backRefs = [] ∧
      (∀ a, tags.store.get a ≠ none →
        ∃ o, s.data.tag o = a) ∧
      (∀ start pending visited,
        s.point = .collecting start pending visited →
          ∀ r ∈ pending, ∀ o, r.referrer = some o →
            s.data.tag o ≠ 0) ∧
      (∀ start, s.point = .searching start →
        ∀ a, Followed m tags start a →
          a ≠ 0 ∧ IsPointer m tags a ∧
            ∃ o, s.data.tag o = a) ∧
      (s.point = .idle →
        (∀ o, s.data.tag o = 0) ∧
        (∀ a, tags.store.get a = none) ∧
        tags.store.deleted.Perm
          (List.range tags.store.created)) := by
  rcases Invariant.run commands (Invariant.initial heap)
      hNone hRun with ⟨tags, hUser, hKept, hPoint⟩
  refine ⟨tags, hUser, hKept.shared_empty, ?_, ?_, ?_, ?_⟩
  · intro a hLive
    exact (hKept.carried a hLive).2.2
  · intro start pending visited hEq r hMem o hReferrer
    rw [hEq] at hPoint
    rcases hPoint.2 r hMem with hRoot | ⟨b, _, hNe, hOut⟩
    · rw [((s.heap.mem_rootReports_iff r).mp hRoot).1]
        at hReferrer
      cases hReferrer
    · rw [((s.heap.mem_reportsOf_iff b r).mp hOut).1]
        at hReferrer
      cases hReferrer
      exact hNe
  · intro start hEq a hFollowed
    rw [hEq] at hPoint
    rcases hPoint with ⟨refClasses, target, hTagged⟩
    rcases hKept.followed hTagged hFollowed with
      ⟨hNe, o, hO⟩
    refine ⟨hNe, ?_, o, hO⟩
    rw [← hO]
    exact hKept.pointer o
  · intro hEq
    rw [hEq] at hPoint
    have hZero : ∀ o, s.data.tag o = 0 := hPoint
    have hFree := hKept.get_eq_none hZero
    exact ⟨hZero, hFree, Store.deleted_perm hFree⟩

/- The static tag below the others. -/
def lowAddresses : Addresses where
  weakSoftReferenceTag := 1
  ne_zero := Int.one_ne_zero
  ne_root := one_ne_rootTag
  alloc := ascending 1 reserved_le_one

/-
  Object 1 is the target, object 2 the class object of
  `java.lang.ref.WeakReference`, and object 3 that of
  `java.lang.Class`.
-/
def heapOf
    (roots : List (Fin 4))
    (fields : List (Fin 4 × Fin 4)) : Heap (Fin 4) where
  roots := roots.map (Reference.mk .thread .none)
  references := fun o =>
    (fields.filter (fun p => p.1 = o)).map
      (fun p => ⟨.field, .index 0, p.2⟩)
  size := fun _ => 16
  classOf := fun o => if o = 3 then 3 else 0
  roots_isRoot := by simp [HeapReferenceKind.isRoot]
  references_isHeld := by simp [HeapReferenceKind.isHeld,
    HeapReferenceKind.isRoot]
  size_pos := fun _ => sixteen_pos

def rootReport (o : Fin 4) : Command (Fin 4) :=
  .report ⟨none, ⟨.thread, .none, o⟩⟩

def fieldReport (p o : Fin 4) : Command (Fin 4) :=
  .report ⟨some p, ⟨.field, .index 0, o⟩⟩

/-
  A search for object 1, and then one for object 0 on a heap
  in which object 1 refers to it, up to its traversal.
-/
def twoRuns : List (Command (Fin 4)) :=
  [.start (heapOf [0] [(0, 1)]) [2] 1,
    rootReport 0, fieldReport 0 1, .stop,
    .clean [0, 1, 2], .free, .free, .free, .finish,
    .start (heapOf [1] [(1, 0)]) [2] 0,
    rootReport 1, fieldReport 1 0, .stop]

theorem paths_isolated_unshared :
    ∃ s,
      run lowAddresses (.initial (heapOf [] []))
          twoRuns = some s ∧
        ∃ tags, s.data.user = some tags ∧
          tags.weakSoftReferenceTag.backRefs = [] ∧
          (∀ a, tags.store.get a ≠ none →
            ∃ o, s.data.tag o = a) ∧
          (∀ start pending visited,
            s.point = .collecting start pending visited →
              ∀ r ∈ pending, ∀ o, r.referrer = some o →
                s.data.tag o ≠ 0) ∧
          (∀ start, s.point = .searching start →
            ∀ a, Followed lowAddresses tags start a →
              a ≠ 0 ∧ IsPointer lowAddresses tags a ∧
                ∃ o, s.data.tag o = a) ∧
          (s.point = .idle →
            (∀ o, s.data.tag o = 0) ∧
            (∀ a, tags.store.get a = none) ∧
            tags.store.deleted.Perm
              (List.range tags.store.created)) := by
  have hSome :
      (run lowAddresses (.initial (heapOf [] []))
          twoRuns).isSome = true := by
    decide +kernel
  rcases Option.isSome_iff_exists.mp hSome with ⟨s, hRun⟩
  exact ⟨s, hRun,
    paths_isolated lowAddresses _ _ s (by decide +kernel)
      hRun⟩

/-
  In the first run object 0 refers to the class object 2 and
  that to the target.  In the second run there is no
  object 0, and a root refers to the class object.
-/
def danglingRun : List (Command (Fin 4)) :=
  [.start (heapOf [0] [(0, 2), (2, 1)]) [2] 1,
    rootReport 0, fieldReport 0 2, fieldReport 2 1, .stop,
    .clean [0, 1, 2], .free, .free, .free, .finish,
    .start (heapOf [2] [(2, 1)]) [2] 1,
    rootReport 2, fieldReport 2 1, .stop]

/-
  The search of the second run follows the static tag to the
  tag that object 0 had in the first run.
-/
theorem not_paths_isolated :
    ¬ ∀ s,
      run lowAddresses (.initial (heapOf [] []))
          danglingRun = some s →
        ∀ tags, s.data.user = some tags →
          ∀ start, s.point = .searching start →
            ∀ a, Followed lowAddresses tags start a →
              IsPointer lowAddresses tags a := by
  intro hAll
  have hDangling :
      (run lowAddresses (.initial (heapOf [] []))
          danglingRun).any
        (fun s => s.data.user.any (fun tags => decide
          (s.point = .searching 2 ∧
            (∃ info ∈ tags.recorded lowAddresses 2,
              info.tag = 1) ∧
            (∃ info ∈ tags.recorded lowAddresses 1,
              info.tag = 3) ∧
            tags.store.get 3 = none))) = true := by
    decide +kernel
  rcases (Option.any_eq_true _ _).mp hDangling with
    ⟨s, hRun, hUser⟩
  rcases (Option.any_eq_true _ _).mp hUser with
    ⟨tags, hTags, hFacts⟩
  rcases of_decide_eq_true hFacts with
    ⟨hPoint, hShared, hDead, hFree⟩
  have hFollowed : Followed lowAddresses tags 2 3 :=
    (Relation.ReflTransGen.single
      ⟨by decide, hShared⟩).tail ⟨by decide, hDead⟩
  rcases hAll s hRun tags hTags 2 hPoint 3 hFollowed with
    hZero | hStatic | hLive
  · exact absurd hZero (by decide)
  · exact absurd hStatic (by decide)
  · exact hLive hFree

end Roots

end MemoryAgent
