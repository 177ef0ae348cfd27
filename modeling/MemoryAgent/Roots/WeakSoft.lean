import MemoryAgent.Jvmti.Orders
import MemoryAgent.Reachability.ObjectsOfClass
import MemoryAgent.Roots.Runs

/-
  The flag of a tag that tells if its object is reachable
  through soft, weak or phantom references only.  It is
  computed by the traversal that collects back references,
  from the flags of the referrer and of its class object at
  the time of the report.

  Key definitions include:
    * `Roots.FlaggedWeakSoft`
    * `Roots.ReachedInOrder`
    * `Roots.Soft`

  Main results:
    * `Roots.Flagging.collectPath`
    * `Roots.flags_iff`
-/

------------------------------------------------------------
-- States
------------------------------------------------------------

namespace MemoryAgent

namespace Roots

open RecordStore

namespace State

@[simp] theorem isWeakSoftReachable_setAlreadyVisited
    (s : State)
    (value : Bool) :
    (s.setAlreadyVisited value).isWeakSoftReachable =
      s.isWeakSoftReachable := by
  rcases s with ⟨bits⟩
  revert bits value
  decide +kernel

@[simp] theorem isWeakSoftReachable_setWeakSoftReachable
    (s : State)
    (value : Bool) :
    (s.setWeakSoftReachable value).isWeakSoftReachable =
      value := by
  rcases s with ⟨bits⟩
  revert bits value
  decide +kernel

@[simp] theorem isAlreadyVisited_setAlreadyVisited
    (s : State)
    (value : Bool) :
    (s.setAlreadyVisited value).isAlreadyVisited =
      value := by
  rcases s with ⟨bits⟩
  revert bits value
  decide +kernel

@[simp] theorem isAlreadyVisited_setWeakSoftReachable
    (s : State)
    (value : Bool) :
    (s.setWeakSoftReachable value).isAlreadyVisited =
      s.isAlreadyVisited := by
  rcases s with ⟨bits⟩
  revert bits value
  decide +kernel

/- The first update sets the flag, later ones clear it. -/
theorem isWeakSoftReachable_update
    (s referrer : State) :
    (s.updateWeakSoftReachableValue
        referrer).isWeakSoftReachable = true ↔
      (s.isWeakSoftReachable = true ∨
          s.isAlreadyVisited = false) ∧
        referrer.isWeakSoftReachable = true := by
  unfold updateWeakSoftReachableValue
  cases hWeak : s.isWeakSoftReachable with
  | true =>
      cases hReferrer : referrer.isWeakSoftReachable with
      | true => simp [hWeak]
      | false => simp
  | false =>
      cases hReferrer : referrer.isWeakSoftReachable with
      | true =>
          cases hVisited : s.isAlreadyVisited with
          | true => simp [hWeak]
          | false => simp
      | false => simp [hWeak]

end State

------------------------------------------------------------
-- The Record of the Referee
------------------------------------------------------------

section Records

variable {m : Addresses}
variable {tags tags' : GcTags}
variable {a : jlong}
variable {args : ReferenceArguments jlong}

theorem modify_get
    {f : GcTag → GcTag}
    {t : GcTag}
    (hZero : a ≠ 0)
    (hNe : a ≠ m.weakSoftReferenceTag)
    (hGet : tags.store.get a = some t)
    (hModify : tags.modify m a f = some tags') :
    tags'.store.get a = some (f t) := by
  unfold GcTags.modify at hModify
  rw [if_neg hZero, if_neg hNe, hGet] at hModify
  cases hModify
  have hLive : tags.store.get a ≠ none := by
    rw [hGet]
    exact Option.some_ne_none t
  exact (Store.get_set hLive a).trans (if_pos rfl)

/- The state that is recorded for a report. -/
def reportedState
    (m : Addresses)
    (tags : GcTags)
    (args : ReferenceArguments jlong)
    (a : jlong)
    (s s' : State) : Prop :=
  match args.referrerTag with
  | none => s' = s.setAlreadyVisited true
  | some b =>
      ∃ referrer,
        referrerForState m tags args.referrerClassTag
            (if args.selfReference = true then a else b) =
          some referrer ∧
        s' =
          (s.updateWeakSoftReachableValue
            referrer.state).setAlreadyVisited true

theorem record_get
    {t : GcTag}
    {next : GcTags}
    (hZero : a ≠ 0)
    (hNe : a ≠ m.weakSoftReferenceTag)
    (hGet : tags.store.get a = some t)
    (hRecord : recordReferrer m args a tags = some next)
    (hVisit : next.setVisited m a = some tags') :
    ∃ t', tags'.store.get a = some t' ∧
      reportedState m tags args a t.state t'.state := by
  unfold recordReferrer at hRecord
  unfold reportedState
  cases hTag : args.referrerTag with
  | none =>
      rw [hTag] at hRecord
      have hPushed := modify_get hZero hNe hGet hRecord
      exact ⟨_, modify_get hZero hNe hPushed hVisit, rfl⟩
  | some b =>
      rw [hTag] at hRecord
      simp only [Option.bind_eq_bind,
        Option.bind_eq_some_iff] at hRecord
      rcases hRecord with
        ⟨referrer, hFor, updated, hState, hPush⟩
      unfold GcTags.updateState at hState
      rw [if_pos hNe] at hState
      have hUpdated := modify_get hZero hNe hGet hState
      have hPushed := modify_get hZero hNe hUpdated hPush
      exact ⟨_, modify_get hZero hNe hPushed hVisit,
        referrer, hFor, rfl⟩

/- A new tag is flagged if the tag of the class is. -/
def CreatedFor
    (m : Addresses)
    (tags : GcTags)
    (classTag : jlong)
    (t : GcTag) : Prop :=
  t.state.isAlreadyVisited = false ∧
    ∀ c, tags.pointerToGcTag m classTag = some c →
      (t.isWeakSoftReachable = true ↔
        classTag ≠ 0 ∧ c.isWeakSoftReachable = true)

theorem createdFor_ofWeakSoftReachable
    {classTag : jlong}
    {next : GcTags}
    (hCreate :
      tags.createForClass m classTag = some (a, next)) :
    ∃ t, tags.new m t = (a, next) ∧
      CreatedFor m tags classTag t := by
  unfold GcTags.createForClass at hCreate
  split at hCreate
  · next hNe =>
      rcases Option.bind_eq_some_iff.mp hCreate with
        ⟨c, hC, hNew⟩
      refine ⟨_, Option.some.inj hNew, ?_, ?_⟩
      · unfold GcTag.ofWeakSoftReachable State.create
        simp
      · intro d hD
        rw [hC] at hD
        cases hD
        unfold GcTag.ofWeakSoftReachable State.create
        simp [GcTag.isWeakSoftReachable, hNe]
  · next hEq =>
      refine ⟨_, Option.some.inj hCreate, ?_, ?_⟩
      · unfold GcTag.ofWeakSoftReachable State.create
        simp
      · intro d _
        refine iff_of_false ?_ (fun hBoth => hEq hBoth.1)
        unfold GcTag.ofWeakSoftReachable State.create
        simp [GcTag.isWeakSoftReachable]

/- The referee had the tag before, or it is a new one. -/
theorem collectPath_record
    (hNe : args.tag ≠ m.weakSoftReferenceTag)
    (hSome : collectPath m args tags = some (a, tags')) :
    (args.tag = a ∧
        ∀ t, tags.store.get a = some t →
          ∃ t', tags'.store.get a = some t' ∧
            reportedState m tags args a t.state t'.state) ∨
      (args.tag = 0 ∧
        ∃ t, (tags.new m t).1 = a ∧
          CreatedFor m tags args.referrerClassTag t ∧
          ∃ t', tags'.store.get a = some t' ∧
            reportedState m (tags.new m t).2 args a t.state
              t'.state) := by
  have hAddress := onlyAt_collectPath hNe hSome
  rcases hAddress with ⟨_, hZeroA, hNeA, _⟩
  unfold collectPath at hSome
  split at hSome
  · next hZero =>
      rcases Option.bind_eq_some_iff.mp hSome with
        ⟨⟨c, next⟩, hCreate, hBoth⟩
      simp only [Option.bind_eq_bind,
        Option.bind_eq_some_iff] at hBoth
      rcases hBoth with
        ⟨recorded, hRecord, visited, hVisit, hEq⟩
      cases hEq
      rcases createdFor_ofWeakSoftReachable hCreate with
        ⟨t, hNew, hCreated⟩
      have hGet :
          (tags.new m t).2.store.get
              (tags.new m t).1 = some t :=
        (Store.get_create m.alloc _).trans (if_pos rfl)
      rw [hNew] at hGet
      have hFinal :=
        record_get hZeroA hNeA hGet hRecord hVisit
      refine Or.inr ⟨hZero, t, by rw [hNew], hCreated, ?_⟩
      rw [hNew]
      exact hFinal
  · next hZero =>
      simp only [Option.bind_eq_bind, Option.bind_some,
        Option.bind_eq_some_iff] at hSome
      rcases hSome with
        ⟨recorded, hRecord, visited, hVisit, hEq⟩
      cases hEq
      refine Or.inl ⟨rfl, ?_⟩
      intro t hGet
      exact record_get hZeroA hNeA hGet hRecord hVisit

theorem modify_shared
    {f : GcTag → GcTag}
    (hModify :
      tags.modify m m.weakSoftReferenceTag f = some tags')
    (hSame :
      ∀ t, (f t).isWeakSoftReachable =
        t.isWeakSoftReachable) :
    tags'.store = tags.store ∧
      tags'.weakSoftReferenceTag.isWeakSoftReachable =
        tags.weakSoftReferenceTag.isWeakSoftReachable := by
  unfold GcTags.modify at hModify
  rw [if_neg m.ne_zero, if_pos rfl] at hModify
  cases hModify
  exact ⟨rfl, hSame _⟩

/- The static tag stays flagged, and the others as they are. -/
theorem collectPath_shared
    (hTag : args.tag = m.weakSoftReferenceTag)
    (hSome : collectPath m args tags = some (a, tags')) :
    a = m.weakSoftReferenceTag ∧
      tags'.store = tags.store ∧
      tags'.weakSoftReferenceTag.isWeakSoftReachable =
        tags.weakSoftReferenceTag.isWeakSoftReachable := by
  unfold collectPath at hSome
  rw [if_neg (by rw [hTag]; exact m.ne_zero)] at hSome
  simp only [Option.bind_eq_bind, Option.bind_some,
    Option.bind_eq_some_iff] at hSome
  rcases hSome with
    ⟨recorded, hRecord, visited, hVisit, hEq⟩
  cases hEq
  rw [hTag] at hRecord hVisit
  have hRecorded :
      recorded.store = tags.store ∧
        recorded.weakSoftReferenceTag.isWeakSoftReachable =
          tags.weakSoftReferenceTag.isWeakSoftReachable := by
    unfold recordReferrer at hRecord
    cases hReferrer : args.referrerTag with
    | none =>
        rw [hReferrer] at hRecord
        exact modify_shared hRecord (fun _ => rfl)
    | some b =>
        rw [hReferrer] at hRecord
        simp only [Option.bind_eq_bind,
          Option.bind_eq_some_iff] at hRecord
        rcases hRecord with ⟨t, _, updated, hState, hPush⟩
        unfold GcTags.updateState at hState
        rw [if_neg (fun hNe => hNe rfl)] at hState
        cases hState
        exact modify_shared hPush (fun _ => rfl)
  have hVisited :=
    modify_shared hVisit
      (fun t =>
        State.isWeakSoftReachable_setAlreadyVisited t.state
          true)
  exact ⟨hTag, hVisited.1.trans hRecorded.1,
    hVisited.2.trans hRecorded.2⟩

theorem OnlyAt.pointer
    {b : jlong}
    (hOnly : OnlyAt m a tags tags')
    (hNe : b ≠ a) :
    tags'.pointerToGcTag m b = tags.pointerToGcTag m b := by
  unfold GcTags.pointerToGcTag
  rw [hOnly.shared, hOnly.others b hNe]

/- Pointers are read as before a tag was made. -/
theorem pointer_new
    {b : jlong}
    (t : GcTag)
    (hPointer : IsPointer m tags b) :
    (tags.new m t).2.pointerToGcTag m b =
      tags.pointerToGcTag m b := by
  apply (onlyAt_new t).pointer
  intro hEq
  have hReserved := @new_not_reserved m tags t
  rw [← hEq] at hReserved
  have hFree : tags.store.get b = none := by
    rw [hEq]
    exact Store.get_nextAddress m.alloc
  exact (hPointer.resolve_left hReserved.1).elim
    hReserved.2 (fun hLive => hLive hFree)

/- The referrer is weak if it or its class is flagged. -/
theorem referrerForState_weak
    {classTag b : jlong}
    {t c d : GcTag}
    (hFor : referrerForState m tags classTag b = some t)
    (hC : tags.pointerToGcTag m classTag = some c)
    (hD : tags.pointerToGcTag m b = some d) :
    t.isWeakSoftReachable = true ↔
      (classTag ≠ 0 ∧ c.isWeakSoftReachable = true) ∨
        d.isWeakSoftReachable = true := by
  unfold referrerForState at hFor
  by_cases hZero : classTag = 0
  · rw [if_neg (fun hNe => hNe hZero), hD] at hFor
    cases hFor
    simp [hZero]
  · rw [if_pos hZero, hC] at hFor
    simp only [Option.bind_eq_bind, Option.bind_some]
      at hFor
    by_cases hWeak : c.isWeakSoftReachable = true
    · rw [if_pos hWeak] at hFor
      cases hFor
      simp [hZero, hWeak]
    · rw [if_neg hWeak, hD] at hFor
      cases hFor
      simp [hWeak]

end Records

------------------------------------------------------------
-- The Order of Reports
------------------------------------------------------------

section Orders

variable {O : Type}

/-
  No object passes strength on by itself, and the class
  object of a holder that does so has not been reported, or
  was reached, too.
-/
def orderRules
    (h : Heap O)
    (refClasses : List O)
    (target : O)
    (reports : List (Report O)) : Heap.OrderRules O where
  takes := fun o => ¬ Carrier refClasses target o
  starts := fun _ _ => False
  guard := h.classOf
  silent := fun i c =>
    ¬ Carrier refClasses target c ∧
      ¬ Heap.ReportedBefore reports i c

/-
  Report `i` reaches the object along references reported
  one after another, which start at a root.  When a
  reference is reported, the class object of its holder has
  not been reported, or was reached so, too.
-/
def ReachedInOrder
    (h : Heap O)
    (refClasses : List O)
    (target : O)
    (reports : List (Report O)) : Nat → O → Prop :=
  Heap.ReachedInOrder
    (orderRules h refClasses target reports) reports

variable {h : Heap O}
variable {refClasses : List O}
variable {target : O}
variable {reports : List (Report O)}
variable {n : Nat}
variable {r : Report O}
variable {o : O}

def InOrderBefore
    (h : Heap O)
    (refClasses : List O)
    (target : O)
    (reports : List (Report O)) : Nat → O → Prop :=
  Heap.InOrderBefore
    (orderRules h refClasses target reports) reports

/- The tag of the object is flagged after `n` reports. -/
def Soft
    (h : Heap O)
    (refClasses : List O)
    (target : O)
    (reports : List (Report O))
    (n : Nat)
    (o : O) : Prop :=
  Carrier refClasses target o ∨
    (Heap.ReportedBefore reports n o ∧
      ¬ InOrderBefore h refClasses target reports n o)

/- Report `n` clears the flag of its referee. -/
def Strengthens
    (h : Heap O)
    (refClasses : List O)
    (target : O)
    (reports : List (Report O))
    (n : Nat)
    (r : Report O) : Prop :=
  ∀ a, r.referrer = some a →
    ¬ Soft h refClasses target reports n (h.classOf a) ∧
      ¬ Soft h refClasses target reports n a

theorem strengthens_of_root
    (hReferrer : r.referrer = none) :
    Strengthens h refClasses target reports n r := by
  intro p hP
  rw [hReferrer] at hP
  cases hP

theorem not_strengthens_iff
    {p : O}
    (hReferrer : r.referrer = some p) :
    ¬ Strengthens h refClasses target reports n r ↔
      Soft h refClasses target reports n (h.classOf p) ∨
        Soft h refClasses target reports n p := by
  constructor
  · intro hNot
    by_contra hNeither
    rw [not_or] at hNeither
    apply hNot
    intro q hQ
    rw [hReferrer] at hQ
    cases hQ
    exact hNeither
  · intro hEither hStrong
    have hBoth := hStrong p hReferrer
    exact hEither.elim hBoth.1 hBoth.2

theorem not_soft_of_inOrder
    (hBefore :
      InOrderBefore h refClasses target reports n o) :
    ¬ Soft h refClasses target reports n o := by
  rintro (hCarrier | ⟨_, hNot⟩)
  · rcases hBefore with ⟨i, _, hReached⟩
    exact hReached.takes hCarrier
  · exact hNot hBefore

theorem passes_iff
    (hHeld : Heap.Held h none reports n r) :
    Heap.Passes (orderRules h refClasses target reports)
        reports n r ↔
      Strengthens h refClasses target reports n r := by
  apply forall_congr'
  intro a
  apply imp_congr_right
  intro hReferrer
  constructor
  · rintro (hStarts | ⟨hBefore, hClass⟩)
    · cases hStarts
    · refine ⟨?_, not_soft_of_inOrder hBefore⟩
      rcases hClass with ⟨hNot, hNew⟩ | hKnown
      · rintro (hCarrier | ⟨hReported, _⟩)
        · exact hNot hCarrier
        · exact hNew hReported
      · exact not_soft_of_inOrder hKnown
  · rintro ⟨hClass, hHolder⟩
    have hReported : Heap.ReportedBefore reports n a := by
      rcases hHeld.referrer hReferrer with
        hStart | hReported
      · cases hStart
      · exact hReported
    have hBefore :
        InOrderBefore h refClasses target reports n a := by
      by_contra hNone
      exact hHolder (Or.inr ⟨hReported, hNone⟩)
    refine Or.inr ⟨hBefore, ?_⟩
    by_cases hKnown :
        InOrderBefore h refClasses target reports n
          (h.classOf a)
    · exact Or.inr hKnown
    · exact Or.inl
        ⟨fun hCarrier => hClass (Or.inl hCarrier),
          fun hNew => hClass (Or.inr ⟨hNew, hKnown⟩)⟩

theorem inOrderBefore_succ_iff
    (hAt : reports[n]? = some r)
    (hHeld : Heap.Held h none reports n r) :
    InOrderBefore h refClasses target reports (n + 1) o ↔
      InOrderBefore h refClasses target reports n o ∨
        (r.referee = o ∧ ¬ Carrier refClasses target o ∧
          Strengthens h refClasses target reports n r) := by
  rw [← passes_iff hHeld]
  exact Heap.inOrderBefore_succ_iff hAt

/- A report does not concern other objects. -/
theorem soft_succ_of_ne
    (hAt : reports[n]? = some r)
    (hHeld : Heap.Held h none reports n r)
    (hNe : o ≠ r.referee) :
    Soft h refClasses target reports (n + 1) o ↔
      Soft h refClasses target reports n o := by
  unfold Soft
  rw [Heap.reportedBefore_succ_iff hAt,
    inOrderBefore_succ_iff hAt hHeld]
  have hNot : ¬ r.referee = o := Ne.symm hNe
  simp [hNot]

theorem soft_succ_referee
    (hAt : reports[n]? = some r)
    (hHeld : Heap.Held h none reports n r)
    (hNot : ¬ Carrier refClasses target r.referee) :
    Soft h refClasses target reports (n + 1) r.referee ↔
      ¬ InOrderBefore h refClasses target reports n
          r.referee ∧
        ¬ Strengthens h refClasses target reports n r := by
  unfold Soft
  rw [Heap.reportedBefore_succ_iff hAt,
    inOrderBefore_succ_iff hAt hHeld]
  simp [hNot]

end Orders

------------------------------------------------------------
-- Flags after a Number of Reports
------------------------------------------------------------

section Flags

variable {O : Type}
variable {h : Heap O}
variable {m : Addresses}
variable {refClasses : List O}
variable {target : O}
variable {start : jlong}
variable {reports : List (Report O)}
variable {n : Nat}
variable {r : Report O}
variable {tag : O → jlong}
variable {tags tags' : GcTags}
variable {a : jlong}

/- The flags after `n` reports. -/
structure Flagging
    (h : Heap O)
    (m : Addresses)
    (refClasses : List O)
    (target : O)
    (reports : List (Report O))
    (n : Nat)
    (tag : O → jlong)
    (tags : GcTags) : Prop where
  shared :
    tags.weakSoftReferenceTag.isWeakSoftReachable = true
  reported :
    ∀ o, Heap.ReportedBefore reports n o →
      Alive h o ∧ tag o ≠ 0
  flags :
    ∀ o t, ¬ Carrier refClasses target o → tag o ≠ 0 →
      tags.store.get (tag o) = some t →
        (t.state.isAlreadyVisited = true ↔
          Heap.ReportedBefore reports n o) ∧
        (t.isWeakSoftReachable = true ↔
          Soft h refClasses target reports n o)

/- What the tag of an object tells. -/
theorem Flagging.soft_iff
    (hFlagging :
      Flagging h m refClasses target reports n tag tags)
    (hTagged :
      WellTagged h m refClasses target start tag tags)
    (o : O) :
    ∃ t, tags.pointerToGcTag m (tag o) = some t ∧
      (tag o ≠ 0 ∧ t.isWeakSoftReachable = true ↔
        Soft h refClasses target reports n o) := by
  rcases exists_pointerToGcTag (hTagged.pointer o) with
    ⟨t, hT⟩
  refine ⟨t, hT, ?_⟩
  by_cases hCarrier : Carrier refClasses target o
  · have hShared := (hTagged.shared o).mpr hCarrier
    unfold GcTags.pointerToGcTag at hT
    rw [hShared, if_neg m.ne_zero, if_pos rfl] at hT
    cases hT
    refine iff_of_true ⟨?_, hFlagging.shared⟩
      (Or.inl hCarrier)
    rw [hShared]
    exact m.ne_zero
  · by_cases hZero : tag o = 0
    · refine iff_of_false (fun hBoth => hBoth.1 hZero) ?_
      rintro (hYes | ⟨hReported, _⟩)
      · exact hCarrier hYes
      · exact (hFlagging.reported o hReported).2 hZero
    · have hNotShared : tag o ≠ m.weakSoftReferenceTag :=
        fun hEq => hCarrier ((hTagged.shared o).mp hEq)
      unfold GcTags.pointerToGcTag at hT
      rw [if_neg hZero, if_neg hNotShared] at hT
      rw [and_iff_right hZero]
      exact (hFlagging.flags o t hCarrier hZero hT).2

/- The flag of the tag that decides about a referee. -/
theorem Flagging.referrer_iff
    (hFlagging :
      Flagging h m refClasses target reports n tag tags)
    (hTagged :
      WellTagged h m refClasses target start tag tags)
    {p : O}
    (hReported : Heap.ReportedBefore reports n p)
    {next : GcTags}
    (hClass :
      next.pointerToGcTag m (tag (h.classOf p)) =
        tags.pointerToGcTag m (tag (h.classOf p)))
    (hHolder :
      next.pointerToGcTag m (tag p) =
        tags.pointerToGcTag m (tag p))
    {referrer : GcTag}
    (hFor :
      referrerForState m next (tag (h.classOf p)) (tag p) =
        some referrer) :
    referrer.isWeakSoftReachable = true ↔
      Soft h refClasses target reports n (h.classOf p) ∨
        Soft h refClasses target reports n p := by
  rcases hFlagging.soft_iff hTagged (h.classOf p) with
    ⟨c, hC, hSoftC⟩
  rcases hFlagging.soft_iff hTagged p with ⟨d, hD, hSoftD⟩
  rw [and_iff_right (hFlagging.reported p hReported).2]
    at hSoftD
  rw [← hSoftC, ← hSoftD]
  exact referrerForState_weak hFor (hClass.trans hC)
    (hHolder.trans hD)

variable [DecidableEq O]
variable {user : Option GcTags}

/- A root reference only marks its referee as visited. -/
theorem reportedState_of_root
    {next : GcTags}
    {s s' : State}
    (hReferrer : r.referrer = none)
    (hState :
      Roots.reportedState m next
        (h.arguments r ⟨tag, user⟩) a s s') :
    s' = s.setAlreadyVisited true := by
  have hTag :
      (h.arguments r ⟨tag, user⟩).referrerTag = none := by
    change r.referrer.map tag = none
    rw [hReferrer]
    rfl
  unfold Roots.reportedState at hState
  rw [hTag] at hState
  exact hState

/- Otherwise the tags of the referrer and its class decide. -/
theorem reportedState_of_referrer
    {p : O}
    {next : GcTags}
    {s s' : State}
    (hReferrer : r.referrer = some p)
    (hSelf : r.referee = p → tag p = a)
    (hState :
      Roots.reportedState m next
        (h.arguments r ⟨tag, user⟩) a s s') :
    ∃ referrer,
      referrerForState m next (tag (h.classOf p)) (tag p) =
          some referrer ∧
        s' =
          (s.updateWeakSoftReachableValue
            referrer.state).setAlreadyVisited true := by
  have hTag :
      (h.arguments r ⟨tag, user⟩).referrerTag =
        some (tag p) := by
    change r.referrer.map tag = some (tag p)
    rw [hReferrer]
    rfl
  have hClassTag :
      (h.arguments r ⟨tag, user⟩).referrerClassTag =
        tag (h.classOf p) := by
    unfold Heap.arguments
    rw [hReferrer]
  have hSame :
      (if (h.arguments r ⟨tag, user⟩).selfReference =
          true then a else tag p) = tag p := by
    split
    · next hYes =>
        have hEq : r.referrer = some r.referee :=
          of_decide_eq_true hYes
        rw [hReferrer] at hEq
        cases hEq
        exact (hSelf rfl).symm
    · rfl
  unfold Roots.reportedState at hState
  rw [hTag] at hState
  rcases hState with ⟨referrer, hFor, hEq⟩
  rw [hClassTag, hSame] at hFor
  exact ⟨referrer, hFor, hEq⟩

/- The state that a report leaves with its referee. -/
theorem Flagging.reportedState
    (hFlagging :
      Flagging h m refClasses target reports n tag tags)
    (hTagged :
      WellTagged h m refClasses target start tag tags)
    (hHeld : Heap.Held h none reports n r)
    (hFirst :
      r.referrer = none →
        Heap.ReportedBefore reports n r.referee →
          InOrderBefore h refClasses target reports n
            r.referee)
    {next : GcTags}
    (hNext :
      ∀ b, IsPointer m tags b →
        next.pointerToGcTag m b = tags.pointerToGcTag m b)
    (hSelf :
      tag r.referee ≠ 0 → tag r.referee = a)
    {s s' : State}
    (hVisited :
      s.isAlreadyVisited = true ↔
        Heap.ReportedBefore reports n r.referee)
    (hOld :
      Heap.ReportedBefore reports n r.referee →
        (s.isWeakSoftReachable = true ↔
          ¬ InOrderBefore h refClasses target reports n
            r.referee))
    (hNew :
      ¬ Heap.ReportedBefore reports n r.referee →
        s.isWeakSoftReachable = true →
          ∃ p, r.referrer = some p ∧
            Soft h refClasses target reports n
              (h.classOf p))
    (hState :
      Roots.reportedState m next
        (h.arguments r ⟨tag, user⟩) a s s') :
    s'.isAlreadyVisited = true ∧
      (s'.isWeakSoftReachable = true ↔
        ¬ InOrderBefore h refClasses target reports n
            r.referee ∧
          ¬ Strengthens h refClasses target reports n r) := by
  cases hReferrer : r.referrer with
  | none =>
      rw [reportedState_of_root hReferrer hState]
      refine ⟨State.isAlreadyVisited_setAlreadyVisited _ _,
        ?_⟩
      rw [State.isWeakSoftReachable_setAlreadyVisited]
      refine iff_of_false ?_
        (fun hNot => hNot.2 (strengthens_of_root hReferrer))
      intro hWeak
      by_cases hReported :
          Heap.ReportedBefore reports n r.referee
      · exact (hOld hReported).mp hWeak
          (hFirst hReferrer hReported)
      · rcases hNew hReported hWeak with ⟨p, hP, _⟩
        rw [hReferrer] at hP
        cases hP
  | some p =>
      have hReported : Heap.ReportedBefore reports n p := by
        rcases hHeld.referrer hReferrer with
          hStart | hReported
        · cases hStart
        · exact hReported
      have hSame : r.referee = p → tag p = a := by
        intro hEq
        rw [hEq] at hSelf
        exact hSelf (hFlagging.reported p hReported).2
      rcases reportedState_of_referrer hReferrer hSame
        hState with ⟨referrer, hFor, hEq⟩
      have hReferrerIff :=
        hFlagging.referrer_iff hTagged hReported
          (hNext _ (hTagged.pointer _))
          (hNext _ (hTagged.pointer _)) hFor
      rw [hEq]
      refine ⟨State.isAlreadyVisited_setAlreadyVisited _ _,
        ?_⟩
      rw [State.isWeakSoftReachable_setAlreadyVisited,
        State.isWeakSoftReachable_update,
        not_strengthens_iff hReferrer, ← hReferrerIff]
      apply and_congr_left
      intro _
      by_cases hBefore :
          Heap.ReportedBefore reports n r.referee
      · rw [hOld hBefore]
        have hYes := hVisited.mpr hBefore
        simp [hYes]
      · have hNo : s.isAlreadyVisited = false := by
          rw [← Bool.not_eq_true, hVisited]
          exact hBefore
        refine iff_of_true (Or.inr hNo) ?_
        intro hReached
        exact hBefore hReached.reported

/- The flags of the other objects stay as they should be. -/
theorem Flagging.flags_of_ne
    (hFlagging :
      Flagging h m refClasses target reports n tag tags)
    (hTagged' :
      WellTagged h m refClasses target start
        (Function.update tag r.referee a) tags')
    (hAt : reports[n]? = some r)
    (hHeld : Heap.Held h none reports n r)
    (hSame :
      ∀ b, b ≠ a → tags'.store.get b = tags.store.get b)
    {o : O}
    {t : GcTag}
    (hNe : o ≠ r.referee)
    (hNot : ¬ Carrier refClasses target o)
    (hZero : Function.update tag r.referee a o ≠ 0)
    (hGet :
      tags'.store.get (Function.update tag r.referee a o) =
        some t) :
    (t.state.isAlreadyVisited = true ↔
      Heap.ReportedBefore reports (n + 1) o) ∧
    (t.isWeakSoftReachable = true ↔
      Soft h refClasses target reports (n + 1) o) := by
  have hNotShared :
      Function.update tag r.referee a o ≠
        m.weakSoftReferenceTag :=
    fun hEq => hNot ((hTagged'.shared o).mp hEq)
  have hNeA : Function.update tag r.referee a o ≠ a := by
    intro hEq
    apply hNe
    apply hTagged'.inj o r.referee hZero hNotShared
    rw [hEq, Function.update_self]
  rw [hSame _ hNeA] at hGet
  rw [Function.update_of_ne hNe] at hGet hZero
  have hOld := hFlagging.flags o t hNot hZero hGet
  rw [Heap.reportedBefore_succ_iff hAt,
    soft_succ_of_ne hAt hHeld hNe,
    or_iff_left (Ne.symm hNe)]
  exact hOld

/- A new tag is soft for the class of the referrer. -/
theorem Flagging.soft_of_created
    (hFlagging :
      Flagging h m refClasses target reports n tag tags)
    (hTagged :
      WellTagged h m refClasses target start tag tags)
    {t : GcTag}
    (hCreated :
      CreatedFor m tags
        (h.arguments r ⟨tag, user⟩).referrerClassTag t)
    (hWeak : t.isWeakSoftReachable = true) :
    ∃ p, r.referrer = some p ∧
      Soft h refClasses target reports n (h.classOf p) := by
  cases hReferrer : r.referrer with
  | none =>
      have hClassTag :
          (h.arguments r ⟨tag, user⟩).referrerClassTag =
            0 := by
        unfold Heap.arguments
        rw [hReferrer]
      rw [hClassTag] at hCreated
      exact absurd rfl
        ((hCreated.2 GcTag.initial rfl).mp hWeak).1
  | some p =>
      have hClassTag :
          (h.arguments r ⟨tag, user⟩).referrerClassTag =
            tag (h.classOf p) := by
        unfold Heap.arguments
        rw [hReferrer]
      rw [hClassTag] at hCreated
      rcases hFlagging.soft_iff hTagged (h.classOf p) with
        ⟨c, hC, hSoft⟩
      exact ⟨p, rfl,
        hSoft.mp ((hCreated.2 c hC).mp hWeak)⟩

/- The flags that a report leaves with its referee. -/
theorem Flagging.referee_flags
    (hFlagging :
      Flagging h m refClasses target reports n tag tags)
    (hTagged :
      WellTagged h m refClasses target start tag tags)
    (hNonzero : a ≠ 0)
    (hHeld : Heap.Held h none reports n r)
    (hFirst :
      r.referrer = none →
        Heap.ReportedBefore reports n r.referee →
          InOrderBefore h refClasses target reports n
            r.referee)
    (hCarrier : ¬ Carrier refClasses target r.referee)
    (hSome :
      Roots.collectPath m (h.arguments r ⟨tag, user⟩) tags =
        some (a, tags'))
    {t : GcTag}
    (hGet : tags'.store.get a = some t) :
    t.state.isAlreadyVisited = true ∧
      (t.isWeakSoftReachable = true ↔
        ¬ InOrderBefore h refClasses target reports n
            r.referee ∧
          ¬ Strengthens h refClasses target reports n r) := by
  have hTag : tag r.referee ≠ m.weakSoftReferenceTag :=
    fun hEq => hCarrier ((hTagged.shared r.referee).mp hEq)
  have hArg :
      (h.arguments r ⟨tag, user⟩).tag ≠
        m.weakSoftReferenceTag := hTag
  rcases collectPath_record hArg hSome with
    ⟨hTagA, hRecord⟩ | ⟨hTagZero, hNew⟩
  · -- The referee keeps its tag.
    have hTagA' : tag r.referee = a := hTagA
    have hLive :
        tags.store.get (tag r.referee) ≠ none := by
      refine ((hTagged.pointer
        r.referee).resolve_left ?_).resolve_left hTag
      rw [hTagA']
      exact hNonzero
    rcases Option.ne_none_iff_exists'.mp hLive with
      ⟨t₀, hGet₀⟩
    have hFlags :=
      hFlagging.flags r.referee t₀ hCarrier
        (by rw [hTagA']; exact hNonzero) hGet₀
    rw [hTagA'] at hGet₀
    rcases hRecord t₀ hGet₀ with ⟨t', hGet', hState⟩
    rw [hGet] at hGet'
    cases hGet'
    refine hFlagging.reportedState hTagged hHeld hFirst
      (fun _ _ => rfl) (fun _ => hTagA') hFlags.1 ?_ ?_
      hState
    · intro hYes
      refine hFlags.2.trans ?_
      unfold Soft
      simp [hCarrier, hYes]
    · intro hNo hWeak
      rcases hFlags.2.mp hWeak with hYes | hYes
      · exact absurd hYes hCarrier
      · exact absurd hYes.1 hNo
  · -- The referee gets a new one.
    have hTagZero' : tag r.referee = 0 := hTagZero
    have hNo :
        ¬ Heap.ReportedBefore reports n r.referee :=
      fun hYes => (hFlagging.reported _ hYes).2 hTagZero'
    rcases hNew with ⟨t₀, _, hCreated, t', hGet', hState⟩
    rw [hGet] at hGet'
    cases hGet'
    refine hFlagging.reportedState hTagged hHeld hFirst
      (fun b hPointer => pointer_new t₀ hPointer)
      (fun hNe => absurd hTagZero' hNe) ?_
      (fun hYes => absurd hYes hNo)
      (fun _ hWeak =>
        hFlagging.soft_of_created hTagged hCreated hWeak)
      hState
    rw [hCreated.1]
    exact iff_of_false Bool.false_ne_true hNo

/- Every report keeps the flags as they should be. -/
theorem Flagging.collectPath
    (hFlagging :
      Flagging h m refClasses target reports n tag tags)
    (hTagged :
      WellTagged h m refClasses target start tag tags)
    (hTagged' :
      WellTagged h m refClasses target start
        (Function.update tag r.referee a) tags')
    (hNonzero : a ≠ 0)
    (hAlive : Alive h r.referee)
    (hAt : reports[n]? = some r)
    (hHeld : Heap.Held h none reports n r)
    (hFirst :
      ¬ Carrier refClasses target r.referee →
        r.referrer = none →
          Heap.ReportedBefore reports n r.referee →
            InOrderBefore h refClasses target reports n
              r.referee)
    (hSome :
      Roots.collectPath m (h.arguments r ⟨tag, user⟩) tags =
        some (a, tags')) :
    Flagging h m refClasses target reports (n + 1)
      (Function.update tag r.referee a) tags' := by
  have hReported :
      ∀ o, Heap.ReportedBefore reports (n + 1) o →
        Alive h o ∧
          Function.update tag r.referee a o ≠ 0 := by
    intro o hO
    by_cases hEq : o = r.referee
    · rw [hEq, Function.update_self]
      exact ⟨hAlive, hNonzero⟩
    · rw [Function.update_of_ne hEq]
      rcases (Heap.reportedBefore_succ_iff hAt).mp hO with
        hOld | hNew
      · exact hFlagging.reported o hOld
      · exact absurd hNew.symm hEq
  by_cases hCarrier : Carrier refClasses target r.referee
  · have hArg :
        (h.arguments r ⟨tag, user⟩).tag =
          m.weakSoftReferenceTag :=
      (hTagged.shared r.referee).mpr hCarrier
    rcases collectPath_shared hArg hSome with
      ⟨_, hStore, hFlag⟩
    refine ⟨hFlag.trans hFlagging.shared, hReported, ?_⟩
    intro o t hNot hZero hGet
    have hNe : o ≠ r.referee := by
      intro hEq
      rw [hEq] at hNot
      exact hNot hCarrier
    exact hFlagging.flags_of_ne hTagged' hAt hHeld
      (fun b _ => by rw [hStore]) hNe hNot hZero hGet
  · have hArg :
        (h.arguments r ⟨tag, user⟩).tag ≠
          m.weakSoftReferenceTag :=
      fun hEq =>
        hCarrier ((hTagged.shared r.referee).mp hEq)
    rcases onlyAt_collectPath hArg hSome with
      ⟨hOnly, _, _, hAddress⟩
    refine ⟨?_, hReported, ?_⟩
    · rw [hOnly.shared]
      exact hFlagging.shared
    · intro o t hNot hZero hGet
      by_cases hNe : o = r.referee
      · rw [hNe, Function.update_self] at hGet
        rw [hNe, Heap.reportedBefore_succ_iff hAt,
          soft_succ_referee hAt hHeld hCarrier]
        have hFlags :=
          hFlagging.referee_flags hTagged hNonzero hHeld
            (hFirst hCarrier) hCarrier hSome hGet
        exact ⟨iff_of_true hFlags.1 (Or.inr rfl), hFlags.2⟩
      · exact hFlagging.flags_of_ne hTagged' hAt hHeld
          hOnly.others hNe hNot hZero hGet

------------------------------------------------------------
-- The Traversal
------------------------------------------------------------

/- The callback asks to visit every referee. -/
theorem CollectInvariant.visit
    {state :
      Worklist.State O (Report O)
        (Tagged O jlong (Option GcTags))}
    (hInvariant :
      CollectInvariant h m refClasses target start state)
    (hPending : r ∈ state.pending) :
    (h.invoke (collectPaths m) r state.data).2 =
      .visit := by
  have hStop := (hInvariant.report hPending).1
  rw [Heap.invoke_signal] at hStop ⊢
  unfold collectPaths at hStop ⊢
  split
  · next hNone =>
      rw [hNone] at hStop
      exact absurd rfl hStop
  · rfl

theorem flagging_initialTags
    (h : Heap O)
    (m : Addresses)
    (refClasses : List O)
    (target : O)
    (reports : List (Report O))
    (hStatic :
      tags.weakSoftReferenceTag.isWeakSoftReachable =
        true) :
    Flagging h m refClasses target reports 0
      (initialTags m refClasses target tags).2.tag
      (tags.create m).2 := by
  refine ⟨hStatic, ?_, ?_⟩
  · intro o hReported
    exact absurd hReported Heap.not_reportedBefore_zero
  · intro o t hNot hZero hGet
    have hTarget : o = target := by
      by_contra hNe
      apply hZero
      change Function.update (setTagsForReferences refClasses
        m.weakSoftReferenceTag ⟨fun _ => 0, ()⟩).tag target
          (tags.create m).1 o = 0
      rw [Function.update_of_ne hNe,
        setTagsForReferences_tag, if_neg]
      exact fun hMem => hNot ⟨hMem, hNe⟩
    have hTag :
        (initialTags m refClasses target tags).2.tag o =
          (tags.create m).1 := by
      rw [hTarget]
      exact Function.update_self _ _ _
    have hInitial :
        (tags.create m).2.store.get (tags.create m).1 =
          some GcTag.initial :=
      (Store.get_create m.alloc _).trans (if_pos rfl)
    rw [hTag, hInitial] at hGet
    cases hGet
    have hNone :
        ¬ Heap.ReportedBefore reports 0 o :=
      Heap.not_reportedBefore_zero
    refine ⟨iff_of_false (by decide) hNone,
      iff_of_false (by decide) ?_⟩
    rintro (hCarrier | ⟨hReported, _⟩)
    · exact hNot hCarrier
    · exact hNone hReported

theorem flagging_createTags
    (hStatic :
      tags.weakSoftReferenceTag.isWeakSoftReachable = true)
    (hReports :
      h.FollowReferences none (collectPaths m)
        (initialTags m refClasses target tags).2 reports) :
    ∃ tags',
      (createTags h m refClasses target tags
          reports).2.user = some tags' ∧
        WellTagged h m refClasses target
          (initialTags m refClasses target tags).1
          (createTags h m refClasses target tags
            reports).2.tag tags' ∧
        Flagging h m refClasses target reports
          reports.length
          (createTags h m refClasses target tags
            reports).2.tag tags' := by
  have hFirst :
      ∀ n (r : Report O), reports[n]? = some r →
        ¬ Carrier refClasses target r.referee →
          r.referrer = none →
            Heap.ReportedBefore reports n r.referee →
              InOrderBefore h refClasses target reports n
                r.referee := by
    rintro n r hAt hNot hNone ⟨i, hLt, q, hQ, hEq⟩
    have hRoot :=
      Heap.roots_first
        (CollectInvariant h m refClasses target
          (initialTags m refClasses target tags).1)
        (fun _ _ hInv hMem => (hInv.report hMem).2)
        (fun _ _ hInv hMem => hInv.visit hMem)
        (CollectInvariant.init h m refClasses target tags)
        hReports hLt hAt hNone hQ
    rw [← hEq] at hNot ⊢
    exact ⟨i, hLt, .root hQ hRoot hNot⟩
  have hStep :
      ∀ n (s : Tagged O jlong (Option GcTags)) r,
        (∃ tags', s.user = some tags' ∧
          WellTagged h m refClasses target
            (initialTags m refClasses target tags).1 s.tag
            tags' ∧
          Flagging h m refClasses target reports n s.tag
            tags') →
          Heap.Held h none reports n r →
            ∃ a before after,
              s.user = some before ∧
              WellTagged h m refClasses target
                (initialTags m refClasses target tags).1
                s.tag before ∧
              Flagging h m refClasses target reports n s.tag
                before ∧
              Alive h r.referee ∧ a ≠ 0 ∧
              collectPath m (h.arguments r s) before =
                some (a, after) ∧
              WellTagged h m refClasses target
                (initialTags m refClasses target tags).1
                (Function.update s.tag r.referee a)
                after := by
    rintro n s r ⟨before, hUser, hTagged, hFlagging⟩ hHeld
    have hReportable : Reportable h s.tag r := by
      rcases hHeld with ⟨_, hRoot⟩ | ⟨p, hOut, hStart | hP⟩
      · exact Or.inl hRoot
      · cases hStart
      · exact Or.inr ⟨p, (hFlagging.reported p hP).1,
          (hFlagging.reported p hP).2, hOut⟩
    rcases hTagged.collectPath hReportable with
      ⟨a, after, hSome, hNe, hNext⟩
    exact ⟨a, before, after, hUser, hTagged, hFlagging,
      hReportable.alive, hNe, hSome, hNext⟩
  have hFinal :=
    Heap.followReferences_steps
      (fun n (s : Tagged O jlong (Option GcTags)) =>
        ∃ tags', s.user = some tags' ∧
          WellTagged h m refClasses target
            (initialTags m refClasses target tags).1 s.tag
            tags' ∧
          Flagging h m refClasses target reports n s.tag
            tags')
      ?_ ?_ hReports ?_
  · exact hFinal
  · intro n s r hInv hHeld
    rcases hStep n s r hInv hHeld with
      ⟨a, before, after, hUser, _, _, _, _, hSome, _⟩
    rw [Heap.invoke_signal]
    unfold collectPaths
    rw [hUser, Option.bind_some, hSome]
    exact Worklist.Signal.noConfusion
  · intro n s r hInv hAt hHeld
    rcases hStep n s r hInv hHeld with
      ⟨a, before, after, hUser, hTagged, hFlagging, hAlive,
        hNe, hSome, hNext⟩
    have hAnswer :
        collectPaths m (h.arguments r s) s.user =
          (a, some after, .visit) := by
      unfold collectPaths
      rw [hUser, Option.bind_some, hSome]
    refine ⟨after, ?_, ?_, ?_⟩
    · rw [Heap.invoke_user, hAnswer]
    · rw [Heap.invoke_tag, hAnswer]
      exact hNext
    · rw [Heap.invoke_tag, hAnswer]
      exact hFlagging.collectPath hTagged hNext hNe hAlive
        hAt hHeld (hFirst n r hAt) hSome
  · rcases initialTags_wellTagged h m refClasses target tags
      with ⟨tags', hUser, hTagged⟩
    refine ⟨tags', hUser, hTagged, ?_⟩
    have hCreated : (tags.create m).2 = tags' :=
      Option.some.inj hUser
    rw [← hCreated]
    exact flagging_initialTags h m refClasses target reports
      hStatic

omit [DecidableEq O] in
theorem alive_of_stronglyReached
    {o : O}
    (hReached :
      Reachability.StronglyReached h refClasses none o) :
    Alive h o := by
  induction hReached with
  | @root r _ hMem => exact ⟨r, hMem, .refl⟩
  | start hStart _ _ => cases hStart
  | step _ _ hRefers ih =>
      rcases ih with ⟨r, hMem, hPath⟩
      exact ⟨r, hMem, hPath.tail hRefers⟩

end Flags

/- The object has a tag that is flagged weak or soft. -/
def FlaggedWeakSoft
    {O : Type}
    (m : Addresses)
    (tag : O → jlong)
    (tags : GcTags)
    (o : O) : Prop :=
  tag o ≠ 0 ∧
    ∃ t, tags.pointerToGcTag m (tag o) = some t ∧
      t.isWeakSoftReachable = true

/-
  The flags are right exactly if every class object with the
  static tag is reachable through reference objects only,
  and the other objects that some path without them reaches
  are those that references reported one after another
  reach.
-/
theorem flags_iff
    {O : Type}
    [DecidableEq O]
    (h : Heap O)
    (m : Addresses)
    (refClasses : List O)
    (target : O)
    (tags : GcTags)
    (reports : List (Report O))
    (hStatic :
      tags.weakSoftReferenceTag.isWeakSoftReachable = true)
    (hReports :
      h.FollowReferences none (collectPaths m)
        (initialTags m refClasses target tags).2 reports) :
    ∃ tags',
      (createTags h m refClasses target tags
          reports).2.user = some tags' ∧
        ((∀ o,
          FlaggedWeakSoft m
              (createTags h m refClasses target tags
                reports).2.tag tags' o ↔
            Alive h o ∧
              ¬ Reachability.StronglyReached h refClasses
                none o) ↔
          (∀ o, Carrier refClasses target o →
            Alive h o ∧
              ¬ Reachability.StronglyReached h refClasses
                none o) ∧
          ∀ o, ¬ Carrier refClasses target o →
            (Reachability.StronglyReached h refClasses
                none o ↔
              ∃ i, ReachedInOrder h refClasses target
                reports i o)) := by
  rcases flagging_createTags hStatic hReports with
    ⟨tags', hUser, hTagged, hFlagging⟩
  refine ⟨tags', hUser, ?_⟩
  have hFlagged :
      ∀ o,
        FlaggedWeakSoft m
            (createTags h m refClasses target tags
              reports).2.tag tags' o ↔
          Soft h refClasses target reports reports.length
            o := by
    intro o
    rcases hFlagging.soft_iff hTagged o with ⟨t, hT, hSoft⟩
    rw [← hSoft]
    apply and_congr_right
    intro _
    constructor
    · rintro ⟨t', hT', hWeak⟩
      rw [hT] at hT'
      cases hT'
      exact hWeak
    · exact fun hWeak => ⟨t, hT, hWeak⟩
  have hAlive :
      ∀ o, Heap.ReportedBefore reports reports.length o ↔
        Alive h o := by
    intro o
    constructor
    · exact fun hReported =>
        (hFlagging.reported o hReported).1
    · rintro ⟨x, hRoot, hPath⟩
      exact Heap.reported_of_reachable
        (CollectInvariant h m refClasses target
          (initialTags m refClasses target tags).1)
        (fun _ _ hInv hMem => (hInv.report hMem).2)
        (fun _ _ hInv hMem => hInv.visit hMem)
        (CollectInvariant.init h m refClasses target tags)
        hReports hRoot hPath
  have hInOrder :
      ∀ o,
        InOrderBefore h refClasses target reports
            reports.length o ↔
          ∃ i, ReachedInOrder h refClasses target reports i
            o :=
    fun _ => Heap.inOrderBefore_length_iff
  constructor
  · intro hAll
    constructor
    · intro o hCarrier
      exact (hAll o).mp
        ((hFlagged o).mpr (Or.inl hCarrier))
    · intro o hNot
      have hSame := (hFlagged o).symm.trans (hAll o)
      unfold Soft at hSame
      rw [or_iff_right hNot, hAlive] at hSame
      rw [← hInOrder]
      constructor
      · intro hStrong
        by_contra hNever
        exact (hSame.mp ⟨alive_of_stronglyReached hStrong,
          hNever⟩).2 hStrong
      · intro hReached
        by_contra hNever
        have hYes := (hAlive o).mp hReached.reported
        exact (hSame.mpr ⟨hYes, hNever⟩).2 hReached
  · rintro ⟨hCarriers, hOthers⟩ o
    rw [hFlagged]
    by_cases hCarrier : Carrier refClasses target o
    · exact iff_of_true (Or.inl hCarrier)
        (hCarriers o hCarrier)
    · unfold Soft
      rw [or_iff_right hCarrier, hAlive, hInOrder,
        hOthers o hCarrier]

/-
  A root refers to the weak reference 0 and to object 1, and
  both refer to object 2, which refers to object 3.  The
  class object of the weak reference is 4.
-/
def lateHeap : Heap (Fin 6) where
  roots := [⟨.stackLocal, .none, 0⟩,
    ⟨.stackLocal, .none, 1⟩]
  references := fun o =>
    if o = 0 then [⟨.field, .index 0, 2⟩]
    else if o = 1 then [⟨.field, .index 0, 2⟩]
    else if o = 2 then [⟨.field, .index 0, 3⟩]
    else []
  size := fun _ => 16
  classOf := fun o => if o = 0 then 4 else 5
  roots_isRoot := by decide
  references_isHeld := by decide
  size_pos := fun _ => sixteen_pos

/- Object 3 is reported while object 2 is still flagged. -/
def lateReports : List (Report (Fin 6)) :=
  [⟨none, .stackLocal, .none, 0⟩,
    ⟨none, .stackLocal, .none, 1⟩,
    ⟨some 0, .field, .index 0, 2⟩,
    ⟨some 2, .field, .index 0, 3⟩,
    ⟨some 1, .field, .index 0, 2⟩]

theorem flags_iff_late :
    ∃ tags',
      (createTags lateHeap lowAddresses [4] 3
          GcTags.initial lateReports).2.user = some tags' ∧
        ((∀ o,
          FlaggedWeakSoft lowAddresses
              (createTags lateHeap lowAddresses [4] 3
                GcTags.initial lateReports).2.tag tags' o ↔
            Alive lateHeap o ∧
              ¬ Reachability.StronglyReached lateHeap [4]
                none o) ↔
          (∀ o, Carrier [4] 3 o →
            Alive lateHeap o ∧
              ¬ Reachability.StronglyReached lateHeap [4]
                none o) ∧
          ∀ o, ¬ Carrier [4] 3 o →
            (Reachability.StronglyReached lateHeap [4]
                none o ↔
              ∃ i, ReachedInOrder lateHeap [4] 3
                lateReports i o)) :=
  flags_iff lateHeap lowAddresses [4] 3 GcTags.initial
    lateReports (by decide) (by decide +kernel)

/- The target 3 is flagged. -/
theorem not_flags :
    ¬ ∀ (h : Heap (Fin 6)) (m : Addresses)
        (refClasses : List (Fin 6)) (target : Fin 6)
        (reports : List (Report (Fin 6))),
      h.FollowReferences none (collectPaths m)
          (initialTags m refClasses target
            GcTags.initial).2 reports →
        ∀ tags',
          (createTags h m refClasses target GcTags.initial
              reports).2.user = some tags' →
            ∀ o, FlaggedWeakSoft m
                (createTags h m refClasses target
                  GcTags.initial reports).2.tag tags' o →
              ¬ Reachability.StronglyReached h refClasses
                none o := by
  intro hAll
  have hFlagged :
      (createTags lateHeap lowAddresses [4] 3
          GcTags.initial lateReports).2.user.any
        (fun tags' => decide
          ((createTags lateHeap lowAddresses [4] 3
              GcTags.initial lateReports).2.tag 3 ≠ 0 ∧
            ((tags'.pointerToGcTag lowAddresses
              ((createTags lateHeap lowAddresses [4] 3
                GcTags.initial lateReports).2.tag 3)).any
              GcTag.isWeakSoftReachable) = true)) =
        true := by
    decide +kernel
  rcases (Option.any_eq_true _ _).mp hFlagged with
    ⟨tags', hUser, hBoth⟩
  rcases of_decide_eq_true hBoth with ⟨hNe, hAny⟩
  rcases (Option.any_eq_true _ _).mp hAny with
    ⟨t, hT, hWeak⟩
  have hPath :
      Reachability.StronglyReached lateHeap [4] none 3 :=
    .step
      (.step
        (.root (r := ⟨.stackLocal, .none, 1⟩) rfl
          (by decide))
        (by decide)
        ⟨⟨.field, .index 0, 2⟩, by decide, rfl⟩)
      (by decide) ⟨⟨.field, .index 0, 3⟩, by decide, rfl⟩
  exact hAll lateHeap lowAddresses [4] 3 lateReports
    (by decide +kernel) tags' hUser 3 ⟨hNe, t, hT, hWeak⟩
    hPath

end Roots

end MemoryAgent
