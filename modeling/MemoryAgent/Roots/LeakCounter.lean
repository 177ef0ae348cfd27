import MemoryAgent.Roots.Runs

/-
  The counter that looks for leaks.  In every sequence of
  searches, also those that report class objects with the
  static tag, it is the number of the objects that carry a
  tag of their own, so that it is 0 after every `cleanHeap`.

  Key definitions include:
    * `Roots.GcTags.tally`
    * `Roots.Tallied`
    * `Roots.removeTagsFromHeap`

  Main results:
    * `Roots.LeakInvariant.execute`
    * `Roots.Tallied.removeTagsFromHeap`
    * `Roots.leakCounter_exact`
-/

------------------------------------------------------------
-- Creations and Changes
------------------------------------------------------------

namespace MemoryAgent

namespace Roots

open RecordStore

section Callbacks

variable {m : Addresses}
variable {tags tags' : GcTags}
variable {a : jlong}

/- How far the counter is from the number of tags. -/
def GcTags.tally (tags : GcTags) : jlong :=
  tags.rootsTagBalance - tags.store.cells.length

theorem tally_new
    (t : GcTag) :
    (tags.new m t).2.tally = tags.tally := by
  unfold GcTags.new GcTags.tally
  dsimp only
  rw [Store.length_create, Nat.cast_succ]
  exact add_sub_add_right_eq_sub _ _ _

theorem tally_modify
    {f : GcTag → GcTag}
    (hModify : tags.modify m a f = some tags') :
    tags'.tally = tags.tally := by
  unfold GcTags.modify at hModify
  split at hModify
  · cases hModify
    rfl
  · split at hModify
    · cases hModify
      rfl
    · rcases Option.map_eq_some_iff.mp hModify with
        ⟨t, _, rfl⟩
      unfold GcTags.tally
      dsimp only
      rw [Store.length_set]

theorem tally_recordReferrer
    {args : ReferenceArguments jlong}
    (hRecord :
      recordReferrer m args a tags = some tags') :
    tags'.tally = tags.tally := by
  unfold recordReferrer at hRecord
  cases hTag : args.referrerTag with
  | none =>
      rw [hTag] at hRecord
      exact tally_modify hRecord
  | some referrerTag =>
      rw [hTag] at hRecord
      simp only [Option.bind_eq_bind,
        Option.bind_eq_some_iff] at hRecord
      rcases hRecord with ⟨t, _, next, hState, hPush⟩
      refine (tally_modify hPush).trans ?_
      unfold GcTags.updateState at hState
      split at hState
      · exact tally_modify hState
      · cases hState
        rfl

/- The callback counts the tag that it creates. -/
theorem tally_collectPath
    {args : ReferenceArguments jlong}
    (hSome : collectPath m args tags = some (a, tags')) :
    tags'.tally = tags.tally := by
  have hRest :
      ∀ next c,
        (do
          let next ← recordReferrer m args c next
          let next ← next.setVisited m c
          some (c, next)) = some (a, tags') →
        tags'.tally = next.tally := by
    intro next c hBoth
    simp only [Option.bind_eq_bind,
      Option.bind_eq_some_iff] at hBoth
    rcases hBoth with
      ⟨recorded, hRecord, visited, hVisit, hEq⟩
    cases hEq
    exact (tally_modify hVisit).trans
      (tally_recordReferrer hRecord)
  unfold collectPath at hSome
  split at hSome
  · rcases Option.bind_eq_some_iff.mp hSome with
      ⟨⟨c, next⟩, hCreate, hBoth⟩
    refine (hRest next c hBoth).trans ?_
    unfold GcTags.createForClass at hCreate
    split at hCreate
    · rcases Option.bind_eq_some_iff.mp hCreate with
        ⟨t, _, hNew⟩
      cases hNew
      exact tally_new _
    · cases hCreate
      exact tally_new _
  · exact hRest tags args.tag hSome

/- What is written in the static tag stays in it. -/
theorem store_modify_shared
    {f : GcTag → GcTag}
    (hModify :
      tags.modify m m.weakSoftReferenceTag f =
        some tags') :
    tags'.store = tags.store := by
  unfold GcTags.modify at hModify
  rw [if_neg m.ne_zero, if_pos rfl] at hModify
  cases hModify
  rfl

theorem store_collectPath_shared
    {args : ReferenceArguments jlong}
    (hShared : args.tag = m.weakSoftReferenceTag)
    (hSome : collectPath m args tags = some (a, tags')) :
    a = m.weakSoftReferenceTag ∧
      tags'.store = tags.store := by
  unfold collectPath at hSome
  rw [hShared, if_neg m.ne_zero] at hSome
  simp only [Option.bind_eq_bind, Option.bind_some,
    Option.bind_eq_some_iff] at hSome
  rcases hSome with
    ⟨recorded, hRecord, visited, hVisit, hEq⟩
  cases hEq
  refine ⟨rfl, (store_modify_shared hVisit).trans ?_⟩
  unfold recordReferrer at hRecord
  cases hTag : args.referrerTag with
  | none =>
      rw [hTag] at hRecord
      exact store_modify_shared hRecord
  | some referrerTag =>
      rw [hTag] at hRecord
      simp only [Option.bind_eq_bind,
        Option.bind_eq_some_iff] at hRecord
      rcases hRecord with ⟨t, _, next, hState, hPush⟩
      refine (store_modify_shared hPush).trans ?_
      unfold GcTags.updateState at hState
      rw [if_neg (not_not_intro rfl)] at hState
      cases hState
      rfl

end Callbacks

------------------------------------------------------------
-- Invariants
------------------------------------------------------------

section Invariants

variable {O : Type}
variable {m : Addresses}
variable {tag : O → jlong}
variable {tags tags' : GcTags}
variable {a : jlong}
variable {o : O}

/- Every tag in memory is on an object. -/
def Carried
    (m : Addresses)
    (tag : O → jlong)
    (tags : GcTags) : Prop :=
  ∀ a, tags.store.get a ≠ none →
    a ≠ 0 ∧ a ≠ m.weakSoftReferenceTag ∧ ∃ o, tag o = a

/- Every tag in memory is on one object, and counted. -/
structure Tallied
    (m : Addresses)
    (tag : O → jlong)
    (tags : GcTags) : Prop where
  carried : Carried m tag tags
  pointer : ∀ o, IsPointer m tags (tag o)
  inj :
    ∀ o p, tag o ≠ 0 → tag o ≠ m.weakSoftReferenceTag →
      tag o = tag p → o = p
  balance : tags.tally = 0

structure LeakInvariant
    (m : Addresses)
    (s : Session O)
    (tags : GcTags) : Prop where
  user : s.data.user = some tags
  tallied : Tallied m s.data.tag tags
  point : PointInvariant m s.heap s.data.tag tags s.point

/- The addresses in use are the tags of the objects. -/
theorem Tallied.get_ne_none_iff
    (hTallied : Tallied m tag tags) :
    tags.store.get a ≠ none ↔
      ∃ o, tag o = a ∧ tag o ≠ 0 ∧
        tag o ≠ m.weakSoftReferenceTag := by
  constructor
  · intro hLive
    rcases hTallied.carried a hLive with ⟨hZero, hNe, o, rfl⟩
    exact ⟨o, rfl, hZero, hNe⟩
  · rintro ⟨o, rfl, hZero, hNe⟩
    rcases hTallied.pointer o with hNone | hShared | hLive
    · exact absurd hNone hZero
    · exact absurd hShared hNe
    · exact hLive

/- The counter is the number of objects with own tags. -/
theorem Tallied.rootsTagBalance
    [Fintype O]
    (hTallied : Tallied m tag tags) :
    tags.rootsTagBalance =
      (Finset.univ.filter (fun o =>
        tag o ≠ 0 ∧
          tag o ≠ m.weakSoftReferenceTag)).card := by
  classical
  let own := Finset.univ.filter (fun o =>
    tag o ≠ 0 ∧ tag o ≠ m.weakSoftReferenceTag)
  have hImage :
      tags.store.addresses.toFinset = own.image tag := by
    ext a
    rw [List.mem_toFinset, Finset.mem_image,
      ← not_iff_not, ← Store.get_eq_none_iff, ← not_iff_not,
      not_not, ← Ne, hTallied.get_ne_none_iff]
    simp only [own, Finset.mem_filter, Finset.mem_univ,
      true_and]
    exact exists_congr (fun _ => and_comm)
  have hInj : Set.InjOn tag own := by
    intro o hO p _ hSame
    have hOwn := (Finset.mem_filter.mp hO).2
    exact hTallied.inj o p hOwn.1 hOwn.2 hSame
  have hCard : tags.store.cells.length = own.card :=
    calc
      tags.store.cells.length =
          tags.store.addresses.length :=
        (List.length_map _).symm
      _ = tags.store.addresses.toFinset.card :=
        (List.toFinset_card_of_nodup
          tags.store.addresses_nodup).symm
      _ = own.card := by
        rw [hImage, Finset.card_image_of_injOn hInj]
  have hBalance := hTallied.balance
  unfold GcTags.tally at hBalance
  rw [sub_eq_zero.mp hBalance, hCard]

/- Without tags on objects none is in memory. -/
theorem Tallied.get_eq_none
    (hTallied : Tallied m tag tags)
    (hZero : ∀ o, tag o = 0)
    (a : jlong) :
    tags.store.get a = none := by
  by_contra hLive
  rcases hTallied.carried a hLive with ⟨hNe, _, o, hO⟩
  exact hNe (hO.symm.trans (hZero o))

theorem Tallied.rootsTagBalance_eq_zero
    (hTallied : Tallied m tag tags)
    (hZero : ∀ o, tag o = 0) :
    tags.rootsTagBalance = 0 := by
  have hBalance := hTallied.balance
  unfold GcTags.tally at hBalance
  rw [sub_eq_zero.mp hBalance,
    Store.cells_eq_nil (hTallied.get_eq_none hZero)]
  rfl

/- How a search finds the memory. -/
theorem tallied_of_free
    (hFree : ∀ a, tags.store.get a = none)
    (hBalance : tags.rootsTagBalance = 0) :
    Tallied m (fun _ : O => 0) tags := by
  refine ⟨fun a hLive => absurd (hFree a) hLive,
    fun _ => Or.inl rfl, fun o p hNe => absurd rfl hNe, ?_⟩
  unfold GcTags.tally
  rw [hBalance, Store.cells_eq_nil hFree]
  rfl

variable [DecidableEq O]

/- A changed or new tag is on the object it is for. -/
theorem Carried.update
    (hCarried : Carried m tag tags)
    (hOthers :
      ∀ b, b ≠ a → tags'.store.get b = tags.store.get b)
    (hZero : a ≠ 0)
    (hNe : a ≠ m.weakSoftReferenceTag)
    (hTag : tag o = a ∨ tag o = 0) :
    Carried m (Function.update tag o a) tags' := by
  intro b hLive
  by_cases hEq : b = a
  · rw [hEq]
    exact ⟨hZero, hNe, o, Function.update_self _ _ _⟩
  · rw [hOthers b hEq] at hLive
    rcases hCarried b hLive with ⟨hZeroB, hNeB, p, hP⟩
    refine ⟨hZeroB, hNeB, p, ?_⟩
    have hNeP : p ≠ o := by
      intro hSame
      rw [hSame] at hP
      rcases hTag with hOld | hNone
      · exact hEq (hP.symm.trans hOld)
      · exact hZeroB (hP.symm.trans hNone)
    rw [Function.update_of_ne hNeP]
    exact hP

/- The static tag is on other objects too. -/
theorem Tallied.free_shared
    (hTallied : Tallied m tag tags)
    (hShared : tag o = m.weakSoftReferenceTag) :
    Tallied m (Function.update tag o 0) tags := by
  refine ⟨?_, ?_, inj_update_zero hTallied.inj,
    hTallied.balance⟩
  · intro b hLive
    rcases hTallied.carried b hLive with ⟨hZero, hNe, p, hP⟩
    refine ⟨hZero, hNe, p, ?_⟩
    have hNeP : p ≠ o := by
      intro hSame
      rw [hSame] at hP
      exact hNe (hP.symm.trans hShared)
    rw [Function.update_of_ne hNeP]
    exact hP
  · intro p
    by_cases hEq : p = o
    · rw [hEq, Function.update_self]
      exact Or.inl rfl
    · rw [Function.update_of_ne hEq]
      exact hTallied.pointer p

/- An own tag is deleted, and no longer counted. -/
theorem Tallied.free_own
    (hTallied : Tallied m tag tags)
    (hTag : tag o ≠ 0)
    (hNe : tag o ≠ m.weakSoftReferenceTag) :
    Tallied m (Function.update tag o 0)
      { tags with
        store := tags.store.delete (tag o)
        rootsTagBalance := tags.rootsTagBalance - 1 } := by
  have hOwn : tags.store.get (tag o) ≠ none :=
    hTallied.get_ne_none_iff.mpr ⟨o, rfl, hTag, hNe⟩
  refine ⟨?_, ?_, inj_update_zero hTallied.inj, ?_⟩
  · intro b hLive
    dsimp only at hLive
    rw [Store.get_delete] at hLive
    by_cases hEq : b = tag o
    · rw [if_pos hEq] at hLive
      exact absurd rfl hLive
    · rw [if_neg hEq] at hLive
      rcases hTallied.carried b hLive with
        ⟨hZero, hNeB, p, hP⟩
      refine ⟨hZero, hNeB, p, ?_⟩
      have hNeP : p ≠ o := by
        intro hSame
        rw [hSame] at hP
        exact hEq hP.symm
      rw [Function.update_of_ne hNeP]
      exact hP
  · intro p
    by_cases hEq : p = o
    · rw [hEq, Function.update_self]
      exact Or.inl rfl
    · rw [Function.update_of_ne hEq]
      refine (hTallied.pointer p).imp_right
        (Or.imp_right ?_)
      intro hLive
      dsimp only
      rw [Store.get_delete, if_neg]
      · exact hLive
      · intro hSame
        exact hEq
          (hTallied.inj o p hTag hNe hSame.symm).symm
  · have hLength := Store.length_delete hOwn
    have hBalance := hTallied.balance
    unfold GcTags.tally at hBalance ⊢
    dsimp only
    rw [sub_eq_zero.mp hBalance, ← hLength, Nat.cast_succ,
      add_sub_cancel_right, sub_self]

/- The deleting callback never meets a deleted tag. -/
theorem Tallied.freeObjectCallback
    (hTallied : Tallied m tag tags)
    (hTag : tag o ≠ 0) :
    ∃ tags',
      Roots.freeObjectCallback m (tag o) tags =
          some (0, tags') ∧
        Tallied m (Function.update tag o 0) tags' := by
  unfold Roots.freeObjectCallback GcTags.cleanTag
  by_cases hShared : tag o = m.weakSoftReferenceTag
  · rw [if_pos hShared]
    exact ⟨tags, rfl, hTallied.free_shared hShared⟩
  · rcases exists_pointerToGcTag (hTallied.pointer o) with
      ⟨t, hGet⟩
    rw [if_neg hShared, if_neg hTag, hGet]
    exact ⟨_, rfl, hTallied.free_own hTag hShared⟩

/- The tags on the classes and on the target. -/
theorem Tallied.tagTarget
    {h : Heap O}
    {data : Tagged O jlong (Option GcTags)}
    (hTallied : Tallied m data.tag tags)
    (hUser : data.user = some tags)
    (hZero : ∀ o, data.tag o = 0)
    (refClasses : List O)
    (target : O) :
    ∃ start next tags',
      Roots.tagTarget m refClasses target data =
          some (start, next) ∧
        next.user = some tags' ∧
        Tallied m next.tag tags' ∧
        WellTagged h m refClasses target start next.tag
          tags' := by
  have hTag : data.tag = fun _ => 0 := funext hZero
  have hEq :
      Roots.tagTarget m refClasses target data =
        some (initialTags m refClasses target tags) := by
    unfold Roots.tagTarget
    rw [hUser, hTag]
    rfl
  rcases initialTags_wellTagged h m refClasses target tags
    with ⟨tags', hUser', hTagged⟩
  have hCreated : (tags.create m).2 = tags' :=
    Option.some.inj hUser'
  have hOnly := @onlyAt_new m tags GcTag.initial
  have hReserved := @new_not_reserved m tags GcTag.initial
  refine ⟨_, _, tags', hEq, hUser',
    ⟨?_, hTagged.pointer, hTagged.inj, ?_⟩, hTagged⟩
  · intro a hLive
    rw [← hCreated] at hLive
    by_cases hEqA : a = (tags.create m).1
    · rw [hEqA]
      exact ⟨hReserved.1, hReserved.2, target,
        hTagged.target_tag⟩
    · have hOld := hOnly.others a hEqA
      change (tags.create m).2.store.get a = _ at hOld
      rw [hOld] at hLive
      rcases hTallied.carried a hLive with ⟨hNe, _, p, hP⟩
      rw [hZero p] at hP
      exact absurd hP.symm hNe
  · rw [← hCreated]
    exact (tally_new _).trans hTallied.balance

/- A report creates at most the tag of its referee. -/
theorem LeakInvariant.report
    {h : Heap O}
    {data : Tagged O jlong (Option GcTags)}
    {start : jlong}
    {pending : List (Report O)}
    {visited : List O}
    {r : Report O}
    (hInvariant :
      LeakInvariant m
        ⟨h, data, .collecting start pending visited⟩ tags)
    (hMem : r ∈ pending) :
    let next :=
      Worklist.report h.graph (h.invoke (collectPaths m)) r
        ⟨pending, visited, data⟩
    ∃ tags',
      LeakInvariant m
        ⟨h, next.data,
          .collecting start next.pending next.expanded⟩
        tags' := by
  intro next
  rcases hInvariant with ⟨hUser, hTallied, hPoint⟩
  rcases hPoint with ⟨⟨refClasses, target, hTagged⟩, hPending⟩
  dsimp only at hUser hTallied hTagged hPending
  have hCollect :
      CollectInvariant h m refClasses target start
        ⟨pending, visited, data⟩ :=
    ⟨⟨tags, hUser, hTagged⟩, hPending⟩
  have hAfter := (hCollect.report hMem).2
  rcases hAfter.user with ⟨tags', hUser', hTagged'⟩
  refine ⟨tags', hUser', ?_, ⟨refClasses, target, hTagged'⟩,
    hAfter.pending⟩
  dsimp only [next]
  rw [Worklist.report_data] at hUser' hTagged' ⊢
  rcases invoke_collectPaths_some hUser hUser' with
    ⟨a, hSome, hTag⟩
  dsimp only at hTag hTagged' ⊢
  rw [hTag] at hTagged' ⊢
  refine ⟨?_, hTagged'.pointer, hTagged'.inj,
    (tally_collectPath hSome).trans hTallied.balance⟩
  by_cases hShared :
      (h.arguments r data).tag = m.weakSoftReferenceTag
  · rcases store_collectPath_shared hShared hSome with
      ⟨hEq, hStore⟩
    have hSame : data.tag r.referee = a :=
      hShared.trans hEq.symm
    rw [← hSame, Function.update_eq_self]
    intro b hLive
    rw [hStore] at hLive
    exact hTallied.carried b hLive
  · rcases onlyAt_collectPath hShared hSome with
      ⟨hOnly, hZero, hNe, hOld⟩
    exact hTallied.carried.update hOnly.others hZero hNe
      hOld

theorem LeakInvariant.free
    {h : Heap O}
    {data : Tagged O jlong (Option GcTags)}
    {o : O}
    {todo : List O}
    (hInvariant :
      LeakInvariant m ⟨h, data, .cleaning (o :: todo)⟩
        tags) :
    ∃ a tags',
      freeObjectCallback m (data.tag o) tags =
          some (a, tags') ∧
        LeakInvariant m
          ⟨h, ⟨Function.update data.tag o a, some tags'⟩,
            .cleaning todo⟩
          tags' := by
  rcases hInvariant with ⟨hUser, hTallied, hNodup, hTodo⟩
  dsimp only at hUser hTallied hTodo
  have hTag : data.tag o ≠ 0 :=
    (hTodo o).mp List.mem_cons_self
  rcases hTallied.freeObjectCallback hTag with
    ⟨tags', hFree, hTallied'⟩
  rcases List.nodup_cons.mp hNodup with ⟨hNotMem, hNodup'⟩
  refine ⟨_, tags', hFree, rfl, hTallied', hNodup', ?_⟩
  intro p
  dsimp only
  by_cases hEq : p = o
  · rw [hEq, Function.update_self]
    exact iff_of_false hNotMem (fun h => h rfl)
  · rw [Function.update_of_ne hEq, ← hTodo p, List.mem_cons]
    exact (or_iff_right hEq).symm

variable [Fintype O]

/- Every step keeps the invariant. -/
theorem LeakInvariant.execute
    {s s' : Session O}
    {command : Command O}
    (hInvariant : LeakInvariant m s tags)
    (hStep : Roots.execute m s command = some s') :
    ∃ tags', LeakInvariant m s' tags' := by
  rcases s with ⟨h, data, point⟩
  have hUser := hInvariant.user
  have hTallied := hInvariant.tallied
  have hPoint := hInvariant.point
  dsimp only at hUser hTallied hPoint
  cases command with
  | start heap refClasses target =>
      cases point with
      | idle =>
          rcases hTallied.tagTarget (h := heap) hUser hPoint
              refClasses target with
            ⟨start, next, tags', hEq, hUser', hTallied',
              hTagged⟩
          simp only [Roots.execute, hEq, Option.map_some]
            at hStep
          cases hStep
          exact ⟨tags', hUser', hTallied',
            ⟨refClasses, target, hTagged⟩,
            fun r hMem => Or.inl hMem⟩
      | collecting start pending visited => cases hStep
      | searching start => cases hStep
      | cleaning todo => cases hStep
  | report r =>
      cases point with
      | collecting start pending visited =>
          simp only [Roots.execute] at hStep
          split at hStep
          · next hMay =>
              cases hStep
              exact hInvariant.report hMay.1
          · cases hStep
      | idle => cases hStep
      | searching start => cases hStep
      | cleaning todo => cases hStep
  | stop =>
      cases point with
      | collecting start pending visited =>
          cases hStep
          exact ⟨tags, hUser, hTallied, hPoint.1⟩
      | idle => cases hStep
      | searching start => cases hStep
      | cleaning todo => cases hStep
  | clean order =>
      cases point with
      | searching start =>
          simp only [Roots.execute] at hStep
          split at hStep
          · next hOrder =>
              cases hStep
              exact ⟨tags, hUser, hTallied, hOrder⟩
          · cases hStep
      | idle => cases hStep
      | collecting start pending visited => cases hStep
      | cleaning todo => cases hStep
  | free =>
      cases point with
      | cleaning todo =>
          cases todo with
          | nil => cases hStep
          | cons o todo =>
              rcases hInvariant.free with
                ⟨a, tags', hFree, hAfter⟩
              simp only [Roots.execute, hUser,
                Option.bind_some, hFree] at hStep
              cases hStep
              exact ⟨tags', hAfter⟩
      | idle => cases hStep
      | collecting start pending visited => cases hStep
      | searching start => cases hStep
  | finish =>
      cases point with
      | cleaning todo =>
          cases todo with
          | nil =>
              cases hStep
              refine ⟨tags, hUser, hTallied, ?_⟩
              intro o
              by_contra hNe
              exact absurd ((hPoint.2 o).mpr hNe)
                List.not_mem_nil
          | cons o todo => cases hStep
      | idle => cases hStep
      | collecting start pending visited => cases hStep
      | searching start => cases hStep

theorem LeakInvariant.run
    {s s' : Session O}
    (commands : List (Command O))
    (hInvariant : LeakInvariant m s tags)
    (hRun : Roots.run m s commands = some s') :
    ∃ tags', LeakInvariant m s' tags' := by
  induction commands generalizing s tags with
  | nil =>
      cases hRun
      exact ⟨tags, hInvariant⟩
  | cons command commands ih =>
      unfold Roots.run at hRun
      rw [List.foldlM_cons] at hRun
      rcases Option.bind_eq_some_iff.mp hRun with
        ⟨t, hStep, hRest⟩
      rcases hInvariant.execute hStep with ⟨next, hNext⟩
      exact ih hNext hRest

omit [DecidableEq O] [Fintype O] in
theorem LeakInvariant.initial
    (heap : Heap O) :
    LeakInvariant m (Session.initial heap)
      GcTags.initial := by
  refine ⟨rfl, ⟨?_, fun _ => Or.inl rfl, ?_, rfl⟩,
    fun _ => rfl⟩
  · intro a hLive
    exact absurd rfl hLive
  · intro o p hNe
    exact absurd rfl hNe

end Invariants

------------------------------------------------------------
-- One Search
------------------------------------------------------------

section Search

variable {O : Type}
variable [DecidableEq O]
variable {m : Addresses}
variable {tags : GcTags}

/- However far the traversal of a search has come. -/
theorem tallied_createTags
    {h : Heap O}
    {refClasses : List O}
    {target : O}
    {reports : List (Report O)}
    (hTallied : Tallied m (fun _ : O => 0) tags)
    (hValid :
      Worklist.Valid h.graph (h.invoke (collectPaths m))
        reports
        (h.traversal none
          (initialTags m refClasses target tags).2)) :
    let s := (createTags h m refClasses target tags reports).2
    ∃ tags', s.user = some tags' ∧ Tallied m s.tag tags' := by
  intro s
  have hNone :
      Tallied m
        (⟨fun _ => 0, some tags⟩ :
          Tagged O jlong (Option GcTags)).tag tags :=
    hTallied
  rcases hNone.tagTarget (h := h) rfl (fun _ => rfl)
      refClasses target with
    ⟨start, data, tags', hEq, hUser, hStart, hTagged⟩
  have hInitial :
      initialTags m refClasses target tags =
        (start, data) :=
    Option.some.inj hEq
  have hFinal :=
    Worklist.replay_invariant
      (fun state :
          Worklist.State O (Report O)
            (Tagged O jlong (Option GcTags)) =>
        ∃ tags,
          LeakInvariant m
            ⟨h, state.data,
              .collecting start state.pending
                state.expanded⟩
            tags)
      (fun _ _ hInvariant hPending => by
        rcases hInvariant with ⟨_, hInvariant⟩
        exact hInvariant.report hPending)
      hValid
      (by
        rw [hInitial]
        exact ⟨tags', hUser, hStart,
          ⟨refClasses, target, hTagged⟩,
          fun _ hMem => Or.inl hMem⟩)
  rcases hFinal with ⟨tags'', hInvariant⟩
  exact ⟨tags'', hInvariant.user, hInvariant.tallied⟩

/-
  `cleanHeap` passes an object.  The memory is absent after
  a tag that was deleted before has been deleted.
-/
def freeObject
    (m : Addresses)
    (s : Tagged O jlong (Option GcTags))
    (o : O) : Tagged O jlong (Option GcTags) :=
  match s.user.bind (freeObjectCallback m (s.tag o)) with
  | some (a, tags) => ⟨Function.update s.tag o a, some tags⟩
  | none => ⟨Function.update s.tag o 0, none⟩

/- `order` is the one in which tagged objects are passed. -/
def removeTagsFromHeap
    (m : Addresses)
    (order : List O)
    (s : Tagged O jlong (Option GcTags)) :
    Tagged O jlong (Option GcTags) :=
  order.foldl (freeObject m) s

/- All tags are removed, and those in memory deleted. -/
theorem Tallied.removeTagsFromHeap
    {order : List O}
    {s : Tagged O jlong (Option GcTags)}
    (hTallied : Tallied m s.tag tags)
    (hUser : s.user = some tags)
    (hNodup : order.Nodup)
    (hOrder : ∀ o, o ∈ order ↔ s.tag o ≠ 0) :
    ∃ tags',
      Roots.removeTagsFromHeap m order s =
          ⟨fun _ => 0, some tags'⟩ ∧
        Tallied m (fun _ : O => 0) tags' := by
  induction order generalizing s tags with
  | nil =>
      have hTag : s.tag = fun _ => 0 := by
        funext o
        by_contra hNe
        exact absurd ((hOrder o).mpr hNe)
          List.not_mem_nil
      rcases s with ⟨tag, user⟩
      dsimp only at hTag hUser hTallied
      rw [hTag] at hTallied ⊢
      rw [hUser]
      exact ⟨tags, rfl, hTallied⟩
  | cons o order ih =>
      have hTag : s.tag o ≠ 0 :=
        (hOrder o).mp List.mem_cons_self
      rcases List.nodup_cons.mp hNodup with
        ⟨hNotMem, hNodup'⟩
      rcases hTallied.freeObjectCallback hTag with
        ⟨tags', hFree, hTallied'⟩
      have hStep :
          freeObject m s o =
            ⟨Function.update s.tag o 0, some tags'⟩ := by
        unfold freeObject
        rw [hUser, Option.bind_some, hFree]
      unfold Roots.removeTagsFromHeap
      rw [List.foldl_cons, hStep]
      apply ih hTallied' rfl hNodup'
      intro p
      dsimp only
      by_cases hEq : p = o
      · rw [hEq, Function.update_self]
        exact iff_of_false hNotMem (fun h => h rfl)
      · rw [Function.update_of_ne hEq, ← hOrder p,
          List.mem_cons]
        exact (or_iff_right hEq).symm

end Search

------------------------------------------------------------
-- The Leak Counter
------------------------------------------------------------

/-
  In every sequence of searches, no matter where each is
  stopped, neither a traversal nor `cleanHeap` meets a
  deleted tag, and `rootsTagBalance` is the number of the
  objects that carry a tag of their own.  After `cleanHeap`
  it is 0, and every tag that was created was deleted once,
  although the static tag may keep dangling references.
-/
theorem leakCounter_exact
    {O : Type}
    [Fintype O]
    [DecidableEq O]
    (m : Addresses)
    (heap : Heap O)
    (commands : List (Command O))
    (s : Session O)
    (hRun : run m (.initial heap) commands = some s) :
    ∃ tags, s.data.user = some tags ∧
      (∀ a, tags.store.get a ≠ none ↔
        ∃ o, s.data.tag o = a ∧ s.data.tag o ≠ 0 ∧
          s.data.tag o ≠ m.weakSoftReferenceTag) ∧
      tags.rootsTagBalance =
        (Finset.univ.filter (fun o =>
          s.data.tag o ≠ 0 ∧
            s.data.tag o ≠
              m.weakSoftReferenceTag)).card ∧
      (s.point = .idle →
        tags.rootsTagBalance = 0 ∧
        (∀ a, tags.store.get a = none) ∧
        tags.store.deleted.Perm
          (List.range tags.store.created)) := by
  rcases LeakInvariant.run commands
      (LeakInvariant.initial heap) hRun with
    ⟨tags, hUser, hTallied, hPoint⟩
  refine ⟨tags, hUser, fun _ => hTallied.get_ne_none_iff,
    hTallied.rootsTagBalance, ?_⟩
  intro hEq
  rw [hEq] at hPoint
  have hZero : ∀ o, s.data.tag o = 0 := hPoint
  have hFree := hTallied.get_eq_none hZero
  exact ⟨hTallied.rootsTagBalance_eq_zero hZero, hFree,
    Store.deleted_perm hFree⟩

/-
  The class object with the static tag is reported, and its
  reference to object 0 stays behind.
-/
theorem leakCounter_exact_shared :
    ∃ s,
      run lowAddresses (.initial (heapOf [] []))
          [.start (heapOf [0] [(0, 2), (2, 1)]) [2] 1,
            rootReport 0, fieldReport 0 2, .stop,
            .clean [1, 0, 2], .free, .free, .free,
            .finish] = some s ∧
        ∃ tags, s.data.user = some tags ∧
          tags.rootsTagBalance = 0 ∧
          ∀ a, tags.store.get a = none := by
  have hSome :
      (run lowAddresses (.initial (heapOf [] []))
          [.start (heapOf [0] [(0, 2), (2, 1)]) [2] 1,
            rootReport 0, fieldReport 0 2, .stop,
            .clean [1, 0, 2], .free, .free, .free,
            .finish]).any
        (fun s => decide (s.point = .idle)) = true := by
    decide +kernel
  rcases (Option.any_eq_true _ _).mp hSome with
    ⟨s, hRun, hIdle⟩
  rcases leakCounter_exact lowAddresses _ _ s hRun with
    ⟨tags, hUser, _, _, hClean⟩
  have hAfter := hClean (of_decide_eq_true hIdle)
  exact ⟨s, hRun, tags, hUser, hAfter.1, hAfter.2.1⟩

end Roots

end MemoryAgent
