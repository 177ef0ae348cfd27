import Mathlib.Data.List.Basic
import MemoryAgent.Allocations.Invariant

/-
  The steps of the calls that add and remove listeners keep
  the invariant.  There is one lemma for each step.  A call
  that is left alone returns.

  Key definitions include:
    * `Allocations.Writes`
    * `Allocations.Advanced`

  Main results:
    * `Allocations.advanced_of_advance`
    * `Allocations.advance_storeHolder`
    * `Allocations.advance_allocateShorter`
    * `Allocations.advance_keeps`
    * `Allocations.exists_returned`
    * `Allocations.Invariant.content_of_idle`
-/

------------------------------------------------------------
-- What a step changes
------------------------------------------------------------

namespace MemoryAgent

namespace Allocations

section Advanced

variable {L C : Type}
variable {equals : L → L → Bool}
variable {s s' : Session L C}

/- The array that the next step writes to. -/
def Point.written : Point L C → Option Nat
| .copyAll _ _ temp => some temp
| .copyBefore _ _ _ temp => some temp
| .copyAfter _ _ _ temp => some temp
| .storeHolder _ array _ _ => some array
| _ => none

/- What a step of a call does to the arrays. -/
inductive Writes (s s' : Session L C) : Prop
  | keep :
      s'.arrays = s.arrays → Writes s s'
  | allocate (content : Holders L C) :
      s'.arrays = s.arrays ++ [content] → Writes s s'
  | write (array : Nat) (content : Holders L C) :
      s.point.written = some array →
        s'.arrays = s.arrays.set array content →
          Writes s s'

/-
  What any step of a call does.  Only a first addition asks
  the native side, and only its answer sets the mirror.
-/
structure Advanced (s s' : Session L C) : Prop where
  writes : Writes s s'
  completed : s.completed <+: s'.completed
  notifications : s'.notifications = s.notifications
  field :
    s.listenerHolders ≠ none → s'.listenerHolders ≠ none
  asks :
    ∀ c, s'.point = .initArrayOfListeners c →
      s.listenerHolders = none
  mirror :
    (∀ c, s.point ≠ .initArrayOfListeners c) →
      s'.mirrorObject = s.mirrorObject

theorem advanced_of_advance
    (hStep : advance equals s = some s') :
    Advanced s s' := by
  have hSame : s.completed <+: s.completed :=
    List.prefix_refl _
  have hOneMore (c : Call L C) :
      s.completed <+: s.completed ++ [c] :=
    List.prefix_append _ _
  unfold advance at hStep
  cases hPoint : s.point with
  | idle =>
      rw [hPoint] at hStep
      cases hStep
  | enter c =>
      cases c with
      | addAllocationListener c =>
          simp only [hPoint] at hStep
          split at hStep
          · next hNone =>
              cases hStep
              exact ⟨.allocate _ rfl, hSame, rfl, by simp,
                fun _ _ => hNone, fun _ => rfl⟩
          · cases hStep
            exact ⟨.keep rfl, hSame, rfl, id, by simp,
              fun _ => rfl⟩
      | removeAllocationListener l =>
          simp only [hPoint] at hStep
          split at hStep
          · cases hStep
            exact ⟨.keep rfl, hOneMore _, rfl, id,
              by simp [Session.complete], fun _ => rfl⟩
          · cases hStep
            exact ⟨.keep rfl, hSame, rfl, id, by simp,
              fun _ => rfl⟩
  | initArrayOfListeners c =>
      have hAsks :
          ¬ ∀ c, s.point ≠ .initArrayOfListeners c :=
        fun hNever => hNever c hPoint
      simp only [hPoint] at hStep
      split at hStep
      · cases hStep
        exact ⟨.keep rfl, hSame, rfl, id, by simp,
          fun hNever => absurd hNever hAsks⟩
      · cases hStep
        exact ⟨.keep rfl, hOneMore _, rfl, id,
          by simp [Session.complete],
          fun hNever => absurd hNever hAsks⟩
  | readSize c =>
      simp only [hPoint, Option.bind_eq_bind,
        Option.bind_eq_some_iff] at hStep
      rcases hStep with ⟨_, _, hEq⟩
      cases hEq
      exact ⟨.keep rfl, hSame, rfl, id, by simp,
        fun _ => rfl⟩
  | allocateLonger c size =>
      simp only [hPoint] at hStep
      cases hStep
      exact ⟨.allocate _ rfl, hSame, rfl, id, by simp,
        fun _ => rfl⟩
  | copyAll c size temp =>
      simp only [hPoint] at hStep
      split at hStep
      · simp only [Option.bind_eq_bind,
          Option.bind_eq_some_iff] at hStep
        rcases hStep with ⟨_, _, _, _, _, _, hEq⟩
        cases hEq
        exact ⟨.write temp _ (by rw [hPoint]; rfl) rfl, hSame,
          rfl, id, by simp, fun _ => rfl⟩
      · cases hStep
        exact ⟨.keep rfl, hSame, rfl, id, by simp,
          fun _ => rfl⟩
  | publishLonger c size temp =>
      simp only [hPoint] at hStep
      cases hStep
      exact ⟨.keep rfl, hSame, rfl, by simp, by simp,
        fun _ => rfl⟩
  | createHolder c array size =>
      simp only [hPoint] at hStep
      cases hStep
      exact ⟨.keep rfl, hSame, rfl, id, by simp,
        fun _ => rfl⟩
  | storeHolder c array size holder =>
      simp only [hPoint, Option.bind_eq_bind,
        Option.bind_eq_some_iff] at hStep
      rcases hStep with ⟨content, _, hEq⟩
      split at hEq
      · cases hEq
        exact ⟨.write array _ (by rw [hPoint]; rfl) rfl,
          hOneMore _, rfl, id, by simp [Session.complete],
          fun _ => rfl⟩
      · cases hEq
  | find l =>
      simp only [hPoint, Option.bind_eq_bind,
        Option.bind_eq_some_iff] at hStep
      rcases hStep with ⟨_, _, _, _, hEq⟩
      cases hEq
      exact ⟨.keep rfl, hSame, rfl, id, by simp,
        fun _ => rfl⟩
  | allocateShorter l index =>
      simp only [hPoint, Option.bind_eq_bind,
        Option.bind_eq_some_iff] at hStep
      rcases hStep with ⟨_, _, hEq⟩
      split at hEq
      · cases hEq
        exact ⟨.keep rfl, hOneMore _, rfl, id,
          by simp [Session.complete], fun _ => rfl⟩
      · cases hEq
        exact ⟨.allocate _ rfl, hSame, rfl, id, by simp,
          fun _ => rfl⟩
  | copyBefore l index newSize temp =>
      simp only [hPoint, Option.bind_eq_bind,
        Option.bind_eq_some_iff] at hStep
      rcases hStep with ⟨_, _, _, _, _, _, hEq⟩
      cases hEq
      exact ⟨.write temp _ (by rw [hPoint]; rfl) rfl, hSame,
        rfl, id, by simp, fun _ => rfl⟩
  | copyAfter l index newSize temp =>
      simp only [hPoint, Option.bind_eq_bind,
        Option.bind_eq_some_iff] at hStep
      rcases hStep with ⟨_, _, _, _, _, _, hEq⟩
      cases hEq
      exact ⟨.write temp _ (by rw [hPoint]; rfl) rfl, hSame,
        rfl, id, by simp, fun _ => rfl⟩
  | publishShorter l temp =>
      simp only [hPoint] at hStep
      cases hStep
      exact ⟨.keep rfl, hOneMore _, rfl,
        fun _ => Option.some_ne_none _,
        by simp [Session.complete], fun _ => rfl⟩

end Advanced

------------------------------------------------------------
-- Steps of the calls
------------------------------------------------------------

section Steps

variable {L C : Type}
variable {equals : L → L → Bool}
variable {s : Session L C}
variable (hInv : Invariant equals s)
include hInv

theorem advance_enter_add
    {c : Addition L C}
    (hPoint : s.point = .enter (.addAllocationListener c)) :
    ∃ s', advance equals s = some s' ∧
      Invariant equals s' := by
  have hSettled : Settled s (registryAfter equals s.completed) :=
    hInv.stands_at hPoint
  by_cases hNone : s.listenerHolders = none
  · have hStep :
        advance equals s =
          some { s.allocate 0 with
            listenerHolders := some s.arrays.length
            point := .initArrayOfListeners c } := by
      simp only [advance, hPoint, if_pos hNone]
    refine ⟨_, hStep, ?_, ?_⟩
    · rcases hSettled.listeners with
        ⟨_, hFirst⟩ | ⟨⟨array, hField, _⟩, _⟩
      · refine ⟨hSettled.created, ⟨_, rfl, ?_⟩, hFirst⟩
        change (s.arrays ++ [_])[s.arrays.length]? = some
          ((registryAfter equals s.completed).holders.map some)
        simp [Registry.holders_of_none hFirst]
      · rw [hNone] at hField
        cases hField
    · exact hInv.follows_allocate (by rw [hPoint]; rfl) rfl
        (List.prefix_refl _) rfl
  · have hStep :
        advance equals s =
          some { s with point := .readSize c } := by
      simp only [advance, hPoint, if_neg hNone]
    refine ⟨_, hStep, ?_, ?_⟩
    · rcases hSettled.listeners with
        ⟨hNone', _⟩ | ⟨hListed, hSome⟩
      · exact absurd hNone' hNone
      · refine ⟨hSettled.created, hListed, rfl, ?_⟩
        apply Registry.after_add
        intro hNone'
        rw [hNone'] at hSome
        cases hSome
    · exact hInv.follows_same (by rw [hPoint]; rfl) rfl
        (List.prefix_refl _) rfl

/- The call is over and has changed no array. -/
theorem Invariant.complete
    {c : Call L C}
    (hIdle : s.point.pending = none)
    (hSettled :
      Settled s
        ((registryAfter equals s.completed).after equals c)) :
    Invariant equals (s.complete c) := by
  refine ⟨?_, ?_⟩
  · change Stands equals (s.complete c)
      (registryAfter equals (s.completed ++ [c])) .idle
    rw [registryAfter_append]
    exact ⟨hSettled.created, hSettled.listeners⟩
  · exact hInv.follows_same hIdle rfl
      (List.prefix_append _ _) rfl

theorem advance_enter_remove
    {l : L}
    (hPoint : s.point = .enter (.removeAllocationListener l)) :
    ∃ s', advance equals s = some s' ∧
      Invariant equals s' := by
  have hSettled : Settled s (registryAfter equals s.completed) :=
    hInv.stands_at hPoint
  by_cases hNone : s.listenerHolders = none
  · have hStep :
        advance equals s =
          some (s.complete (.removeAllocationListener l)) := by
      simp only [advance, hPoint, if_pos hNone]
    refine ⟨_, hStep, ?_⟩
    apply hInv.complete (by rw [hPoint]; rfl)
    rcases hSettled.listeners with
      ⟨_, hFirst⟩ | ⟨⟨array, hField, _⟩, _⟩
    · refine ⟨hSettled.created, Or.inl ⟨hNone, ?_⟩⟩
      simp only [Registry.after, hFirst, Option.map_none]
    · rw [hNone] at hField
      cases hField
  · have hStep :
        advance equals s = some { s with point := .find l } := by
      simp only [advance, hPoint, if_neg hNone]
    refine ⟨_, hStep, ?_, ?_⟩
    · rcases hSettled.listeners with
        ⟨hNone', _⟩ | ⟨hListed, hSome⟩
      · exact absurd hNone' hNone
      · exact ⟨hSettled.created, hListed, hSome⟩
    · exact hInv.follows_same (by rw [hPoint]; rfl) rfl
        (List.prefix_refl _) rfl

theorem advance_initArrayOfListeners
    {c : Addition L C}
    (hPoint : s.point = .initArrayOfListeners c) :
    ∃ s', advance equals s = some s' ∧
      Invariant equals s' := by
  obtain ⟨hCreated, hLists, hFirst⟩ :
      s.created = (registryAfter equals s.completed).count ∧
        Lists s (registryAfter equals s.completed).holders ∧
          (registryAfter equals s.completed).listeners = none :=
    hInv.stands_at hPoint
  by_cases hInitialized : c.initialized = true
  · have hStep :
        advance equals s =
          some { s with
            mirrorObject := true
            point := .readSize c } := by
      simp only [advance, hPoint, if_pos hInitialized]
    refine ⟨_, hStep, ?_, ?_⟩
    · exact ⟨hCreated, hLists, rfl,
        Registry.after_add equals (fun _ => hInitialized)⟩
    · exact hInv.follows_same (by rw [hPoint]; rfl) rfl
        (List.prefix_refl _) rfl
  · have hStep :
        advance equals s =
          some (s.complete (.addAllocationListener c)) := by
      simp only [advance, hPoint, if_neg hInitialized]
    refine ⟨_, hStep, ?_⟩
    apply hInv.complete (by rw [hPoint]; rfl)
    have hAfter :
        (registryAfter equals s.completed).after equals
            (.addAllocationListener c) =
          ⟨some [], (registryAfter equals s.completed).count⟩ := by
      simp [Registry.after, hFirst, hInitialized]
    rw [Registry.holders_of_none hFirst] at hLists
    rw [hAfter]
    exact ⟨hCreated, Or.inr ⟨hLists, rfl⟩⟩

theorem advance_readSize
    {c : Addition L C}
    (hPoint : s.point = .readSize c) :
    ∃ s', advance equals s = some s' ∧
      Invariant equals s' := by
  have hAdding :
      Adding equals s (registryAfter equals s.completed) c
        (registryAfter equals s.completed).holders.length :=
    hInv.stands_at hPoint
  have hStep :
      advance equals s =
        some { s with
          point := .allocateLonger c
            (registryAfter equals s.completed).holders.length
          } := by
    simp only [advance, hPoint, hAdding.lists.content]
    simp
  refine ⟨_, hStep, ?_, ?_⟩
  · exact
      ⟨hAdding.created, hAdding.lists, rfl, hAdding.after⟩
  · exact hInv.follows_same (by rw [hPoint]; rfl) rfl
      (List.prefix_refl _) rfl

theorem advance_allocateLonger
    {c : Addition L C}
    {size : Nat}
    (hPoint : s.point = .allocateLonger c size) :
    ∃ s', advance equals s = some s' ∧
      Invariant equals s' := by
  have hAdding :
      Adding equals s (registryAfter equals s.completed) c
        size :=
    hInv.stands_at hPoint
  have hStep :
      advance equals s =
        some { s.allocate (size + 1) with
          point := .copyAll c size s.arrays.length } := by
    simp only [advance, hPoint]
  refine ⟨_, hStep, ⟨?_, ?_⟩, ?_⟩
  · exact
      ⟨hAdding.created, hAdding.lists.allocate _,
        hAdding.size, hAdding.after⟩
  · exact Own.allocate hAdding.lists
      (fun n hn array hArray => hInv.array_lt hn hArray) _ _
  · exact hInv.follows_allocate (by rw [hPoint]; rfl) rfl
      (List.prefix_refl _) rfl

theorem advance_copyAll
    {c : Addition L C}
    {size temp : Nat}
    (hPoint : s.point = .copyAll c size temp) :
    ∃ s', advance equals s = some s' ∧
      Invariant equals s' := by
  obtain ⟨hAdding, hOwn⟩ :
      Adding equals s (registryAfter equals s.completed) c
          size ∧
        Own s temp (List.replicate (size + 1) none) :=
    hInv.stands_at hPoint
  have hSize := hAdding.size
  by_cases hZero : size = 0
  · have hStep :
        advance equals s =
          some { s with
            point := .publishLonger c size temp } := by
      simp only [advance, hPoint, hZero]
      rfl
    have hEmpty :
        (registryAfter equals s.completed).holders = [] := by
      rw [hZero] at hSize
      exact List.length_eq_zero_iff.mp hSize.symm
    refine ⟨_, hStep, ⟨?_, ?_⟩, ?_⟩
    · exact
        ⟨hAdding.created, hAdding.lists, hSize, hAdding.after⟩
    · refine ⟨?_, hOwn.field, hOwn.unread⟩
      have hHolds := hOwn.holds
      rw [hZero] at hHolds
      change s.arrays[temp]? = some
        ((registryAfter equals s.completed).holders.map some ++
          [none])
      rw [hEmpty, hHolds]
      rfl
    · exact hInv.follows_same (by rw [hPoint]; rfl) rfl
        (List.prefix_refl _) rfl
  · have hStep :
        advance equals s =
          some { s.setArray temp
              ((registryAfter equals s.completed).holders.map
                some ++ [none]) with
            point := .publishLonger c size temp } := by
      simp only [advance, hPoint, if_pos hZero,
        hAdding.lists.content, hOwn.holds]
      simp only [hSize, Option.bind_eq_bind, Option.bind_some,
        arraycopy_all]
    refine ⟨_, hStep, ⟨?_, ?_⟩, ?_⟩
    · exact
        ⟨hAdding.created,
          hAdding.lists.setArray hOwn.field _, hSize,
          hAdding.after⟩
    · exact hOwn.setArray _ _
    · exact hInv.follows_setArray (by rw [hPoint]; rfl) rfl
        (List.prefix_refl _) hOwn rfl

theorem advance_publishLonger
    {c : Addition L C}
    {size temp : Nat}
    (hPoint : s.point = .publishLonger c size temp) :
    ∃ s', advance equals s = some s' ∧
      Invariant equals s' := by
  obtain ⟨hAdding, hOwn⟩ :
      Adding equals s (registryAfter equals s.completed) c
          size ∧
        Own s temp
          ((registryAfter equals s.completed).holders.map
            some ++ [none]) :=
    hInv.stands_at hPoint
  have hStep :
      advance equals s =
        some { s with
          listenerHolders := some temp
          point := .createHolder c temp size } := by
    simp only [advance, hPoint]
  refine ⟨_, hStep, ⟨?_, hAdding.created⟩, ?_⟩
  · exact ⟨rfl, hOwn.holds, hAdding.size, hAdding.after⟩
  · exact hInv.follows_same (by rw [hPoint]; rfl) rfl
      (List.prefix_refl _) rfl

theorem advance_createHolder
    {c : Addition L C}
    {array size : Nat}
    (hPoint : s.point = .createHolder c array size) :
    ∃ s', advance equals s = some s' ∧
      Invariant equals s' := by
  obtain ⟨hHalf, hCreated⟩ :
      HalfStored equals s (registryAfter equals s.completed) c
          array size ∧
        s.created = (registryAfter equals s.completed).count :=
    hInv.stands_at hPoint
  have hStep :
      advance equals s =
        some { s with
          created := s.created + 1
          point := .storeHolder c array size
            ⟨s.created, c.allocationListener,
              c.trackedClasses⟩ } := by
    simp only [advance, hPoint]
  refine ⟨_, hStep, ⟨?_, ?_, ?_⟩, ?_⟩
  · exact ⟨hHalf.field, hHalf.holds, hHalf.size, hHalf.after⟩
  · exact congrArg (· + 1) hCreated
  · rw [hCreated]
    rfl
  · intro n hn
    refine (hInv.follows n hn).keep ?_ (List.prefix_refl _) ?_
    · intro array content _ hHolds
      exact hHolds
    · intro place hPlace
      rw [hPoint] at hPlace
      exact ⟨hPlace, rfl⟩

theorem advance_storeHolder
    {c : Addition L C}
    {array size : Nat}
    {holder : AllocationListenerHolder L C}
    (hPoint : s.point = .storeHolder c array size holder) :
    ∃ s', advance equals s = some s' ∧
      Invariant equals s' := by
  obtain ⟨hHalf, hCreated, hHolder⟩ :
      HalfStored equals s (registryAfter equals s.completed) c
          array size ∧
        s.created =
            (registryAfter equals s.completed).count + 1 ∧
          holder =
            (registryAfter equals s.completed).nextHolder c :=
    hInv.stands_at hPoint
  have hHolds := hHalf.holds
  have hSize := hHalf.size
  generalize hHs :
    (registryAfter equals s.completed).holders = hs
    at hHolds hSize
  have hStep :
      advance equals s =
        some ((s.setArray array
          ((hs ++ [holder]).map some)).complete
            (.addAllocationListener c)) := by
    simp only [advance, hPoint, hHolds, hSize]
    simp
  have hAfter :
      registryAfter equals
          (s.completed ++ [.addAllocationListener c]) =
        ⟨some (hs ++ [holder]), s.created⟩ := by
    rw [registryAfter_append, hHalf.after, hHs, hHolder,
      hCreated]
  refine ⟨_, hStep, ?_, ?_⟩
  · have hRange := (List.getElem?_eq_some_iff.mp hHolds).1
    change Stands equals _
      (registryAfter equals
        (s.completed ++ [.addAllocationListener c])) .idle
    rw [hAfter]
    refine ⟨rfl, Or.inr ⟨⟨array, hHalf.field, ?_⟩, rfl⟩⟩
    change (s.arrays.set array _)[array]? =
      some (List.map some (hs ++ [holder]))
    simp [hRange]
  · intro n hn
    refine (hInv.follows n hn).store ?_ hHs.symm hHolds rfl
      (List.prefix_append _ _) ?_
    · rw [hPoint, hSize]
      rfl
    · refine ⟨(s.completed ++ [_]).length, Nat.le_refl _, ?_⟩
      change _ = listenersAfter equals
        ((s.completed ++ [_]).take (s.completed ++ [_]).length)
      rw [List.take_length, listenersAfter, hAfter]
      rfl

theorem advance_find
    {l : L}
    (hPoint : s.point = .find l) :
    ∃ s', advance equals s = some s' ∧
      Invariant equals s' := by
  have hRemoving :
      Removing s (registryAfter equals s.completed) :=
    hInv.stands_at hPoint
  obtain ⟨index, hFind⟩ :
      ∃ index,
        findListener equals l
          ((registryAfter equals s.completed).holders.map some)
          0 = some index := by
    rcases findListener_map equals l
        (registryAfter equals s.completed).holders 0 with
      ⟨hFind, _⟩ | ⟨k, _, hFind, _⟩
    · exact ⟨_, hFind⟩
    · exact ⟨_, hFind⟩
  have hStep :
      advance equals s =
        some { s with point := .allocateShorter l index } := by
    simp only [advance, hPoint, hRemoving.lists.content]
    simp [hFind]
  refine ⟨_, hStep, ⟨?_, hFind⟩, ?_⟩
  · exact
      ⟨hRemoving.created, hRemoving.lists, hRemoving.listeners⟩
  · exact hInv.follows_same (by rw [hPoint]; rfl) rfl
      (List.prefix_refl _) rfl

theorem advance_allocateShorter
    {l : L}
    {index : Int}
    (hPoint : s.point = .allocateShorter l index) :
    ∃ s', advance equals s = some s' ∧
      Invariant equals s' := by
  obtain ⟨hRemoving, hIndex⟩ :
      Removing s (registryAfter equals s.completed) ∧
        findListener equals l
          ((registryAfter equals s.completed).holders.map some)
          0 = some index :=
    hInv.stands_at hPoint
  rcases findListener_map equals l
      (registryAfter equals s.completed).holders 0 with
    ⟨hFind, hErase⟩ | ⟨k, hk, hFind, hErase⟩
  · -- The listener is not found.
    rw [hFind] at hIndex
    cases hIndex
    have hStep :
        advance equals s =
          some (s.complete (.removeAllocationListener l)) := by
      simp only [advance, hPoint, hRemoving.lists.content]
      simp
    have hAfter :
        (registryAfter equals s.completed).after equals
            (.removeAllocationListener l) =
          registryAfter equals s.completed := by
      simp only [Registry.after]
      rw [hRemoving.listeners, Option.map_some, hErase,
        ← hRemoving.listeners]
    refine ⟨_, hStep, ?_⟩
    apply hInv.complete (by rw [hPoint]; rfl)
    rw [hAfter]
    exact
      ⟨hRemoving.created,
        Or.inr ⟨hRemoving.lists, hRemoving.listeners⟩⟩
  · rw [hFind] at hIndex
    cases hIndex
    obtain ⟨newSize, hSize⟩ :
        ∃ newSize,
          (registryAfter equals s.completed).holders.length =
            newSize + 1 :=
      ⟨_, (Nat.sub_one_add_one (by omega)).symm⟩
    have hInside :
        ¬ (((0 + k : Nat) : Int) < 0 ∨
          ((newSize + 1 : Nat) : Int) - 1 <
            ((0 + k : Nat) : Int)) := by
      omega
    have hStep :
        advance equals s =
          some { s.allocate newSize with
            point := .copyBefore l k newSize
              s.arrays.length } := by
      simp only [advance, hPoint, hRemoving.lists.content,
        Option.bind_eq_bind, Option.bind_some,
        List.length_map, hSize, if_neg hInside]
      simp
    refine ⟨_, hStep, ⟨?_, ?_, ?_⟩, ?_⟩
    · exact
        ⟨hRemoving.created, hRemoving.lists.allocate _,
          hRemoving.listeners⟩
    · exact ⟨hSize, by omega, hErase⟩
    · exact Own.allocate hRemoving.lists
        (fun n hn array hArray => hInv.array_lt hn hArray) _ _
    · exact hInv.follows_allocate (by rw [hPoint]; rfl) rfl
        (List.prefix_refl _) rfl

theorem advance_copyBefore
    {l : L}
    {index newSize temp : Nat}
    (hPoint : s.point = .copyBefore l index newSize temp) :
    ∃ s', advance equals s = some s' ∧
      Invariant equals s' := by
  obtain ⟨hRemoving, hAt, hOwn⟩ :
      Removing s (registryAfter equals s.completed) ∧
        Removing.At equals (registryAfter equals s.completed) l
            index newSize ∧
          Own s temp (List.replicate newSize none) :=
    hInv.stands_at hPoint
  generalize hCopied :
    ((registryAfter equals s.completed).holders.take
        index).map some ++
      List.replicate (newSize - index) none = copied
  have hStep :
      advance equals s =
        some { s.setArray temp copied with
          point := .copyAfter l index newSize temp } := by
    simp only [advance, hPoint, hRemoving.lists.content,
      hOwn.holds, Option.bind_eq_bind, Option.bind_some,
      arraycopy_before hAt.size hAt.inRange, hCopied]
  subst hCopied
  refine ⟨_, hStep,
    ⟨hRemoving.setArray hOwn _ _, hAt, ?_⟩, ?_⟩
  · exact hOwn.setArray _ _
  · exact hInv.follows_setArray (by rw [hPoint]; rfl) rfl
      (List.prefix_refl _) hOwn rfl

theorem advance_copyAfter
    {l : L}
    {index newSize temp : Nat}
    (hPoint : s.point = .copyAfter l index newSize temp) :
    ∃ s', advance equals s = some s' ∧
      Invariant equals s' := by
  obtain ⟨hRemoving, hAt, hOwn⟩ :
      Removing s (registryAfter equals s.completed) ∧
        Removing.At equals (registryAfter equals s.completed) l
            index newSize ∧
          Own s temp
            (((registryAfter equals s.completed).holders.take
                index).map some ++
              List.replicate (newSize - index) none) :=
    hInv.stands_at hPoint
  generalize hCopied :
    ((registryAfter equals s.completed).holders.eraseP
      (fun h => equals h.listener l)).map some = copied
  have hCopy := arraycopy_after hAt.size hAt.inRange
  rw [← hAt.erased, hCopied] at hCopy
  have hStep :
      advance equals s =
        some { s.setArray temp copied with
          point := .publishShorter l temp } := by
    simp only [advance, hPoint, hRemoving.lists.content,
      hOwn.holds, Option.bind_eq_bind, Option.bind_some, hCopy]
  subst hCopied
  refine ⟨_, hStep, ⟨hRemoving.setArray hOwn _ _, ?_⟩, ?_⟩
  · exact hOwn.setArray _ _
  · exact hInv.follows_setArray (by rw [hPoint]; rfl) rfl
      (List.prefix_refl _) hOwn rfl

theorem advance_publishShorter
    {l : L}
    {temp : Nat}
    (hPoint : s.point = .publishShorter l temp) :
    ∃ s', advance equals s = some s' ∧
      Invariant equals s' := by
  obtain ⟨hRemoving, hOwn⟩ :
      Removing s (registryAfter equals s.completed) ∧
        Own s temp
          (((registryAfter equals s.completed).holders.eraseP
            (fun (h : AllocationListenerHolder L C) =>
              equals h.listener l)).map some) :=
    hInv.stands_at hPoint
  have hStep :
      advance equals s =
        some ({ s with listenerHolders := some temp }.complete
          (.removeAllocationListener l)) := by
    simp only [advance, hPoint]
  have hAfter :
      (registryAfter equals s.completed).after equals
          (.removeAllocationListener l) =
        ⟨some
            ((registryAfter equals s.completed).holders.eraseP
              (fun h => equals h.listener l)),
          s.created⟩ := by
    simp only [Registry.after]
    rw [hRemoving.listeners, Option.map_some,
      hRemoving.created]
  refine ⟨_, hStep, ?_, ?_⟩
  · change Stands equals _
      (registryAfter equals
        (s.completed ++ [.removeAllocationListener l])) .idle
    rw [registryAfter_append, hAfter]
    exact ⟨rfl, Or.inr ⟨⟨temp, rfl, hOwn.holds⟩, rfl⟩⟩
  · exact hInv.follows_same (by rw [hPoint]; rfl) rfl
      (List.prefix_append _ _) rfl

/-
  A call in progress can always go on: it throws nothing and
  meets no null.
-/
theorem advance_keeps
    (hBusy : s.point ≠ .idle) :
    ∃ s', advance equals s = some s' ∧
      Invariant equals s' := by
  cases hPoint : s.point with
  | idle => exact absurd hPoint hBusy
  | enter c =>
      cases c with
      | addAllocationListener c =>
          exact advance_enter_add hInv hPoint
      | removeAllocationListener l =>
          exact advance_enter_remove hInv hPoint
  | initArrayOfListeners c =>
      exact advance_initArrayOfListeners hInv hPoint
  | readSize c => exact advance_readSize hInv hPoint
  | allocateLonger c size =>
      exact advance_allocateLonger hInv hPoint
  | copyAll c size temp => exact advance_copyAll hInv hPoint
  | publishLonger c size temp =>
      exact advance_publishLonger hInv hPoint
  | createHolder c array size =>
      exact advance_createHolder hInv hPoint
  | storeHolder c array size holder =>
      exact advance_storeHolder hInv hPoint
  | find l => exact advance_find hInv hPoint
  | allocateShorter l index =>
      exact advance_allocateShorter hInv hPoint
  | copyBefore l index newSize temp =>
      exact advance_copyBefore hInv hPoint
  | copyAfter l index newSize temp =>
      exact advance_copyAfter hInv hPoint
  | publishShorter l temp =>
      exact advance_publishShorter hInv hPoint

end Steps

------------------------------------------------------------
-- Whole calls
------------------------------------------------------------

section Calls

variable {L C : Type}
variable {equals : L → L → Bool}
variable {s s' : Session L C}

/- A bound on the steps that the call has before it. -/
@[simp] def Point.stepsLeft : Point L C → Nat
| .idle => 0
| .enter _ => 8
| .initArrayOfListeners _ => 7
| .readSize _ => 6
| .allocateLonger _ _ => 5
| .copyAll _ _ _ => 4
| .publishLonger _ _ _ => 3
| .createHolder _ _ _ => 2
| .storeHolder _ _ _ _ => 1
| .find _ => 5
| .allocateShorter _ _ => 4
| .copyBefore _ _ _ _ => 3
| .copyAfter _ _ _ _ => 2
| .publishShorter _ _ => 1

/- Every step of a call brings its end nearer. -/
theorem advance_stepsLeft
    (hStep : advance equals s = some s') :
    s'.point.stepsLeft < s.point.stepsLeft := by
  unfold advance at hStep
  cases hPoint : s.point with
  | idle =>
      rw [hPoint] at hStep
      cases hStep
  | enter c =>
      cases c with
      | addAllocationListener c =>
          simp only [hPoint] at hStep
          split at hStep
          · cases hStep
            simp
          · cases hStep
            simp
      | removeAllocationListener l =>
          simp only [hPoint] at hStep
          split at hStep
          · cases hStep
            simp
          · cases hStep
            simp
  | initArrayOfListeners c =>
      simp only [hPoint] at hStep
      split at hStep
      · cases hStep
        simp
      · cases hStep
        simp
  | copyAll c size temp =>
      simp only [hPoint] at hStep
      split at hStep
      · simp only [Option.bind_eq_bind,
          Option.bind_eq_some_iff] at hStep
        rcases hStep with ⟨_, _, _, _, _, _, hEq⟩
        cases hEq
        simp
      · cases hStep
        simp
  | storeHolder c array size holder =>
      simp only [hPoint, Option.bind_eq_bind,
        Option.bind_eq_some_iff] at hStep
      rcases hStep with ⟨content, _, hEq⟩
      split at hEq
      · cases hEq
        simp
      · cases hEq
  | allocateShorter l index =>
      simp only [hPoint, Option.bind_eq_bind,
        Option.bind_eq_some_iff] at hStep
      rcases hStep with ⟨content, _, hEq⟩
      split at hEq
      · cases hEq
        simp
      · cases hEq
        simp
  | readSize c =>
      simp only [hPoint, Option.bind_eq_bind,
        Option.bind_eq_some_iff] at hStep
      rcases hStep with ⟨content, _, hEq⟩
      cases hEq
      simp
  | find l =>
      simp only [hPoint, Option.bind_eq_bind,
        Option.bind_eq_some_iff] at hStep
      rcases hStep with ⟨content, _, index, _, hEq⟩
      cases hEq
      simp
  | copyBefore l index newSize temp =>
      simp only [hPoint, Option.bind_eq_bind,
        Option.bind_eq_some_iff] at hStep
      rcases hStep with ⟨_, _, _, _, _, _, hEq⟩
      cases hEq
      simp
  | copyAfter l index newSize temp =>
      simp only [hPoint, Option.bind_eq_bind,
        Option.bind_eq_some_iff] at hStep
      rcases hStep with ⟨_, _, _, _, _, _, hEq⟩
      cases hEq
      simp
  | _ =>
      simp only [hPoint] at hStep
      cases hStep
      simp

/- A call that is left alone returns. -/
theorem exists_returned
    (hInv : Invariant equals s) :
    ∃ n s',
      (List.replicate n Command.advance).foldlM
          (execute equals) s = some s' ∧
        s'.point = .idle ∧ Invariant equals s' := by
  induction hLeft : s.point.stepsLeft using
    Nat.strongRecOn generalizing s with
  | _ left ih =>
      by_cases hPoint : s.point = .idle
      · exact ⟨0, s, rfl, hPoint, hInv⟩
      · rcases advance_keeps hInv hPoint with
          ⟨s₁, hStep, hInv₁⟩
        rcases ih _ (hLeft ▸ advance_stepsLeft hStep) hInv₁ rfl
          with ⟨n, s', hRun, hIdle, hInv'⟩
        refine ⟨n + 1, s', ?_, hIdle, hInv'⟩
        simp only [List.replicate_succ, List.foldlM_cons,
          execute, hStep]
        exact hRun

/- Between two calls the array lists the listeners. -/
theorem Invariant.content_of_idle
    (hInv : Invariant equals s)
    (hIdle : s.point = .idle) :
    s.content.getD [] =
      (listenersAfter equals s.completed).map some := by
  have hSettled : Settled s (registryAfter equals s.completed) :=
    hInv.stands_at hIdle
  rcases hSettled.listeners with ⟨hNone, hFirst⟩ | ⟨hListed, _⟩
  · rw [listenersAfter, Registry.holders_of_none hFirst]
    simp [Session.content, hNone]
  · rw [hListed.content]
    rfl
end Calls

end Allocations

end MemoryAgent
