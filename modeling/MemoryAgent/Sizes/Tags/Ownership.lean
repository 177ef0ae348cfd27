import MemoryAgent.Sizes.Tags.Program

/-
  Each tag is owned by the objects that carry its address,
  and counts them.  Every callback keeps this up, and uses
  no tag that was deleted.

  Key definitions include:
    * `SizesTags.Consistent`
    * `SizesTags.Owned`
    * `SizesTags.Retags`

  Main results:
    * `SizesTags.Owned.getTagsWithNewInfo`
    * `SizesTags.Owned.visitReference`
    * `SizesTags.Owned.spreadInfo`
    * `SizesTags.Owned.createTagForObject`
    * `SizesTags.Owned.clearTag`
-/

------------------------------------------------------------
-- Consistent Memory
------------------------------------------------------------

namespace MemoryAgent

namespace SizesTags

open RecordStore

/- The tags hold the counts, and their number is known. -/
structure Consistent
    (m : TagAddresses)
    (count : jlong → Nat)
    (tags : TagMemory) : Prop where
  counted : Counted Tag.refCount count tags.store
  reserved : ∀ a ∈ m.reserved, count a = 0
  balance : tags.sizesTagBalance = tags.store.size

/- A pointer that may be followed. -/
def Valid
    (m : TagAddresses)
    (count : jlong → Nat)
    (a : jlong) : Prop :=
  m.isStatic a ∨ count a ≠ 0

section Memory

variable {m : TagAddresses}
variable {count : jlong → Nat}
variable {tags : TagMemory}
variable {a : jlong}

theorem mem_reserved_iff :
    a ∈ m.reserved ↔ a = 0 ∨ m.isStatic a := by
  simp [TagAddresses.reserved, TagAddresses.isStatic]

theorem zero_mem_reserved
    (m : TagAddresses) :
    (0 : jlong) ∈ m.reserved :=
  List.mem_cons_self

theorem emptyTag_mem_reserved
    (m : TagAddresses) :
    m.emptyTag ∈ m.reserved := by
  simp [TagAddresses.reserved]

theorem tagWithNewInfo_mem_reserved
    (m : TagAddresses) :
    m.tagWithNewInfo ∈ m.reserved := by
  simp [TagAddresses.reserved]

theorem mem_reserved_of_zero
    (hZero : a = 0) :
    a ∈ m.reserved := by
  rw [hZero]
  exact zero_mem_reserved m

theorem mem_reserved_of_reset
    (hNew : a = m.tagWithNewInfo) :
    a ∈ m.reserved := by
  rw [hNew]
  exact tagWithNewInfo_mem_reserved m

theorem ne_zero_of_not_mem
    (hNot : a ∉ m.reserved) :
    a ≠ 0 :=
  fun hZero => hNot (mem_reserved_of_zero hZero)

theorem ne_tagWithNewInfo_of_not_mem
    (hNot : a ∉ m.reserved) :
    a ≠ m.tagWithNewInfo :=
  fun hNew => hNot (mem_reserved_of_reset hNew)

theorem static_ne
    (m : TagAddresses) :
    m.emptyTag ≠ 0 ∧ m.tagWithNewInfo ≠ 0 ∧
      m.emptyTag ≠ m.tagWithNewInfo ∧
      m.emptyTag ≠ m.heldObjectTag ∧
      m.tagWithNewInfo ≠ m.heldObjectTag ∧
      m.heldObjectTag ≠ 0 := by
  have hNodup := m.nodup
  simp only [List.nodup_cons, List.mem_cons,
    List.not_mem_nil, or_false, not_or] at hNodup
  rcases hNodup with
    ⟨⟨h1, h2, h3⟩, ⟨h4, h5⟩, h6, _⟩
  exact ⟨Ne.symm h1, Ne.symm h2, h4, h5, h6, Ne.symm h3⟩

theorem gain_of_mem
    (hMem : a ∈ m.reserved) :
    gain m.reserved count a = count :=
  if_pos hMem

theorem lose_of_mem
    (hMem : a ∈ m.reserved) :
    lose m.reserved count a = count :=
  if_pos hMem

theorem Consistent.not_mem_reserved
    (hConsistent : Consistent m count tags)
    (hCount : count a ≠ 0) :
    a ∉ m.reserved :=
  fun hMem => hCount (hConsistent.reserved a hMem)

theorem Consistent.not_isStatic
    (hConsistent : Consistent m count tags)
    (hCount : count a ≠ 0) :
    ¬ m.isStatic a :=
  fun hStatic =>
    hConsistent.not_mem_reserved hCount
      (mem_reserved_iff.mpr (Or.inr hStatic))

theorem Consistent.exists_get
    (hConsistent : Consistent m count tags)
    (hCount : count a ≠ 0) :
    ∃ t, tags.store.get a = some t ∧ t.refCount = count a := by
  rcases hConsistent.counted.exists_get hCount with ⟨t, hT⟩
  exact ⟨t, hT, (hConsistent.counted.live a t hT).1⟩

theorem Consistent.dereference_eq
    (hConsistent : Consistent m count tags)
    (hCount : count a ≠ 0) :
    tags.dereference m a = tags.store.get a := by
  have hNot := hConsistent.not_mem_reserved hCount
  rw [mem_reserved_iff, not_or] at hNot
  unfold TagMemory.dereference
  rw [if_neg hNot.2, if_neg hNot.1]

theorem Consistent.exists_dereference
    (hConsistent : Consistent m count tags)
    (hValid : Valid m count a) :
    ∃ t, tags.dereference m a = some t := by
  rcases hValid with hStatic | hCount
  · exact ⟨Tag.initial, if_pos hStatic⟩
  · rcases hConsistent.exists_get hCount with ⟨t, hT, _⟩
    exact ⟨t, (hConsistent.dereference_eq hCount).trans hT⟩

/- A new tag is at an address that nobody holds. -/
theorem Consistent.new
    (hConsistent : Consistent m count tags)
    {t : Tag}
    (hOne : t.refCount = 1) :
    (tags.new m t).1 ∉ m.reserved ∧
      count (tags.new m t).1 = 0 ∧
      Consistent m
        (gain m.reserved count (tags.new m t).1)
        (tags.new m t).2 := by
  have hReserved : (tags.new m t).1 ∉ m.reserved :=
    Store.nextAddress_not_reserved m.alloc
  have hFree : count (tags.new m t).1 = 0 :=
    hConsistent.counted.free _
      (Store.get_nextAddress m.alloc)
  have hGain :
      gain m.reserved count (tags.new m t).1 =
        Function.update count (tags.new m t).1 1 := by
    unfold gain
    rw [if_neg hReserved, hFree]
  refine ⟨hReserved, hFree, ?_⟩
  rw [hGain]
  refine ⟨hConsistent.counted.create m.alloc hOne, ?_, ?_⟩
  · intro b hMem
    have hNe : b ≠ (tags.new m t).1 := by
      intro hEq
      rw [hEq] at hMem
      exact hReserved hMem
    rw [Function.update_of_ne hNe]
    exact hConsistent.reserved b hMem
  · have hBalance := hConsistent.balance
    change tags.sizesTagBalance + 1 =
      ((tags.store.size + 1 : Nat) : Int)
    rw [hBalance]
    push_cast
    rfl

/- A write that keeps the count. -/
theorem Consistent.modify
    (hConsistent : Consistent m count tags)
    (hCount : count a ≠ 0)
    {f : Tag → Tag}
    (hSame : ∀ t, (f t).refCount = t.refCount) :
    ∃ tags',
      tags.modify m a f = some tags' ∧
        Consistent m count tags' := by
  rcases hConsistent.exists_get hCount with ⟨t, hT, _⟩
  unfold TagMemory.modify
  rw [if_neg (hConsistent.not_isStatic hCount), hT]
  refine ⟨_, rfl, ?_, hConsistent.reserved, ?_⟩
  · exact hConsistent.counted.set_same hT (hSame t)
  · change tags.sizesTagBalance = _
    rw [hConsistent.balance, Store.size_set]

theorem Consistent.setAlreadyReferred
    (hConsistent : Consistent m count tags)
    (hCount : count a ≠ 0) :
    ∃ tags',
      tags.setAlreadyReferred m a = some tags' ∧
        Consistent m count tags' :=
  hConsistent.modify hCount (fun _ => rfl)

theorem Consistent.visitFromUntaggedReferrer
    (hConsistent : Consistent m count tags)
    (hValid : Valid m count a) :
    ∃ tags',
      tags.visitFromUntaggedReferrer m a = some tags' ∧
        Consistent m count tags' := by
  rcases hConsistent.exists_dereference hValid with ⟨t, hT⟩
  by_cases hEmpty : t.array.infos = []
  · refine ⟨tags, ?_, hConsistent⟩
    simp [TagMemory.visitFromUntaggedReferrer, hT, hEmpty]
  · have hCount : count a ≠ 0 := by
      rcases hValid with hStatic | hCount
      · unfold TagMemory.dereference at hT
        rw [if_pos hStatic] at hT
        rw [← Option.some.inj hT] at hEmpty
        exact absurd rfl hEmpty
      · exact hCount
    rcases hConsistent.modify hCount
        (f := fun t =>
          { t with
            array := t.array.map asVisitedFromUntagged })
        (fun _ => rfl) with ⟨tags', hModify, hNext⟩
    refine ⟨tags', ?_, hNext⟩
    simp [TagMemory.visitFromUntaggedReferrer, hT, hEmpty,
      hModify]

theorem Consistent.ref
    (hConsistent : Consistent m count tags)
    (hCount : count a ≠ 0)
    (hLt : count a + 1 < refCountSize) :
    ∃ tags',
      tags.ref m a = some tags' ∧
        Consistent m (gain m.reserved count a) tags' := by
  have hReserved := hConsistent.not_mem_reserved hCount
  rcases hConsistent.exists_get hCount with ⟨t, hT, hRef⟩
  have hLive : tags.store.get a ≠ none := by
    rw [hT]
    exact Option.some_ne_none t
  have hNext : t.incrementRefCount.refCount = count a + 1 := by
    change (t.refCount + 1) % refCountSize = count a + 1
    rw [hRef]
    exact Nat.mod_eq_of_lt hLt
  have hPos : t.incrementRefCount.refCount ≠ 0 := by
    rw [hNext]
    exact Nat.succ_ne_zero _
  have hSet := hConsistent.counted.set hLive hPos
  rw [hNext] at hSet
  unfold TagMemory.ref TagMemory.modify gain
  rw [if_neg (hConsistent.not_isStatic hCount),
    if_neg hReserved, hT]
  refine ⟨_, rfl, hSet, ?_, ?_⟩
  · intro b hMem
    have hNe : b ≠ a := by
      intro hEq
      rw [hEq] at hMem
      exact hReserved hMem
    rw [Function.update_of_ne hNe]
    exact hConsistent.reserved b hMem
  · change tags.sizesTagBalance = _
    rw [hConsistent.balance, Store.size_set]

theorem Consistent.lose_reserved
    (hConsistent : Consistent m count tags)
    (a : jlong) :
    ∀ b ∈ m.reserved, lose m.reserved count a b = 0 := by
  intro b hMem
  unfold lose
  by_cases hReserved : a ∈ m.reserved
  · rw [if_pos hReserved]
    exact hConsistent.reserved b hMem
  · rw [if_neg hReserved]
    have hNe : b ≠ a := by
      intro hEq
      rw [hEq] at hMem
      exact hReserved hMem
    rw [Function.update_of_ne hNe]
    exact hConsistent.reserved b hMem

theorem unref_eq
    {t : Tag}
    (hStatic : ¬ m.isStatic a)
    (hT : tags.store.get a = some t) :
    tags.unref m a =
      tags.release m a t.decrementRefCount := by
  unfold TagMemory.unref
  rw [if_neg hStatic, hT, Option.bind_some]

/- The last owner of a tag deletes it. -/
theorem Consistent.unref
    (hConsistent : Consistent m count tags)
    (hValid : Valid m count a)
    (hLt : count a < refCountSize) :
    ∃ tags',
      tags.unref m a = some tags' ∧
        Consistent m (lose m.reserved count a) tags' := by
  by_cases hStatic : m.isStatic a
  · have hMem := mem_reserved_iff.mpr (Or.inr hStatic)
    rw [lose_of_mem hMem]
    exact ⟨tags, if_pos hStatic, hConsistent⟩
  · have hCount := hValid.resolve_left hStatic
    have hReserved := hConsistent.not_mem_reserved hCount
    rcases hConsistent.exists_get hCount with ⟨t, hT, hRef⟩
    have hLive : tags.store.get a ≠ none := by
      rw [hT]
      exact Option.some_ne_none t
    have hLose :
        lose m.reserved count a =
          Function.update count a (count a - 1) :=
      if_neg hReserved
    have hNext :
        t.decrementRefCount.refCount = count a - 1 := by
      change (t.refCount + (refCountSize - 1)) %
        refCountSize = count a - 1
      rw [hRef]
      have hSplit :
          count a + (refCountSize - 1) =
            (count a - 1) + refCountSize := by
        omega
      rw [hSplit, Nat.add_mod_right]
      exact Nat.mod_eq_of_lt (by omega)
    by_cases hLast : count a - 1 = 0
    · refine ⟨tags.deleteTag a, ?_, ?_,
        hConsistent.lose_reserved a, ?_⟩
      · rw [unref_eq hStatic hT]
        exact if_pos (hNext.trans hLast)
      · rw [hLose, hLast]
        exact hConsistent.counted.delete
      · have hSize := Store.size_delete hLive
        have hBalance := hConsistent.balance
        change tags.sizesTagBalance - 1 =
          ((tags.store.delete a).size : Int)
        rw [hBalance, ← hSize]
        push_cast
        exact add_sub_cancel_right _ _
    · have hPos : t.decrementRefCount.refCount ≠ 0 := by
        rw [hNext]
        exact hLast
      have hSet := hConsistent.counted.set hLive hPos
      rw [hNext] at hSet
      refine ⟨{ tags with
          store := tags.store.set a t.decrementRefCount },
        ?_, ?_, hConsistent.lose_reserved a, ?_⟩
      · rw [unref_eq hStatic hT]
        unfold TagMemory.release TagMemory.modify
        rw [if_neg hPos, if_neg hStatic, hT]
        rfl
      · rw [hLose]
        exact hSet
      · change tags.sizesTagBalance = _
        rw [hConsistent.balance, Store.size_set]

end Memory

------------------------------------------------------------
-- Owned Tags
------------------------------------------------------------

variable {O : Type}
variable [Fintype O]

/- The count of each tag is that of its carriers. -/
structure Owned
    (m : TagAddresses)
    (tag : O → jlong)
    (tags : TagMemory) : Prop where
  consistent :
    Consistent m (owners m.reserved tag) tags
  not_held : ∀ o, tag o ≠ m.heldObjectTag

section Owned

variable {m : TagAddresses}
variable {tag : O → jlong}
variable {tags : TagMemory}
variable {o : O}

theorem Owned.cases
    (hOwned : Owned m tag tags)
    (o : O) :
    tag o = 0 ∨ tag o = m.emptyTag ∨
      tag o = m.tagWithNewInfo ∨
      owners m.reserved tag (tag o) ≠ 0 := by
  by_cases hMem : tag o ∈ m.reserved
  · simp only [TagAddresses.reserved, List.mem_cons,
      List.not_mem_nil, or_false] at hMem
    rcases hMem with h | h | h | h
    · exact Or.inl h
    · exact Or.inr (Or.inl h)
    · exact Or.inr (Or.inr (Or.inl h))
    · exact absurd h (hOwned.not_held o)
  · exact Or.inr (Or.inr (Or.inr (owners_ne_zero hMem)))

theorem Owned.valid
    (hOwned : Owned m tag tags)
    (hNe : tag o ≠ 0) :
    Valid m (owners m.reserved tag) (tag o) := by
  rcases hOwned.cases o with h | h | h | h
  · exact absurd h hNe
  · exact Or.inl (Or.inl h)
  · exact Or.inl (Or.inr (Or.inl h))
  · exact Or.inr h

theorem Owned.exists_classTag
    (hOwned : Owned m tag tags)
    (o : O) :
    ∃ c, tags.tagToClassTagPointer m (tag o) = some c := by
  unfold TagMemory.tagToClassTagPointer
  by_cases hZero : tag o = 0
  · exact ⟨none, if_pos hZero⟩
  · rcases hOwned.consistent.exists_dereference
        (hOwned.valid hZero) with ⟨t, hT⟩
    rw [if_neg hZero, hT]
    exact ⟨t.ids, rfl⟩

theorem Owned.exists_shouldMerge
    (hOwned : Owned m tag tags)
    {p : O}
    (hO : tag o ≠ 0)
    (hP : tag p ≠ 0) :
    ∃ b, tags.shouldMerge m (tag o) (tag p) = some b := by
  rcases hOwned.consistent.exists_dereference
      (hOwned.valid hO) with ⟨t, hT⟩
  rcases hOwned.consistent.exists_dereference
      (hOwned.valid hP) with ⟨r, hR⟩
  exact ⟨t.array.shouldMerge r.array, by
    simp [TagMemory.shouldMerge, hT, hR]⟩

theorem Owned.exists_tagsAreValidForMerge
    (hOwned : Owned m tag tags)
    {p : O}
    (hO : tag o ≠ 0)
    (hP : tag p ≠ 0) :
    ∃ b,
      tags.tagsAreValidForMerge m (tag o) (tag p) = some b ∧
        (tag o = tag p → b = false) := by
  rcases hOwned.exists_classTag o with ⟨c, hC⟩
  rcases hOwned.exists_shouldMerge hO hP with ⟨b, hB⟩
  unfold TagMemory.tagsAreValidForMerge
  rw [hC]
  by_cases hSkip : c.isSome = true ∨ tag o = tag p
  · exact ⟨false, by simp [hSkip], fun _ => rfl⟩
  · refine ⟨b, by simp [hSkip, hB], ?_⟩
    intro hEq
    exact absurd (Or.inr hEq) hSkip

variable [DecidableEq O]

theorem Owned.keep
    (hOwned : Owned m tag tags)
    (o : O) :
    Owned m (Function.update tag o (tag o)) tags := by
  rw [Function.update_eq_self]
  exact hOwned

/- The object drops its tag and takes `b`. -/
theorem Owned.update
    {b : jlong}
    {tags' : TagMemory}
    (hOwned : Owned m tag tags)
    (hNe : b ≠ tag o)
    (hHeld : b ≠ m.heldObjectTag)
    (hConsistent :
      Consistent m
        (lose m.reserved
          (gain m.reserved (owners m.reserved tag) b)
          (tag o)) tags') :
    Owned m (Function.update tag o b) tags' := by
  refine ⟨?_, ?_⟩
  · rw [owners_update hNe]
    exact hConsistent
  · intro p
    by_cases hEq : p = o
    · rw [hEq, Function.update_self]
      exact hHeld
    · rw [Function.update_of_ne hEq]
      exact hOwned.not_held p

theorem ne_held_of_not_mem
    {b : jlong}
    (hNot : b ∉ m.reserved) :
    b ≠ m.heldObjectTag := by
  intro hEq
  apply hNot
  rw [hEq]
  simp [TagAddresses.reserved]

/- The object takes a new tag in place of a static one. -/
theorem Owned.new
    (hOwned : Owned m tag tags)
    (hOld : tag o ∈ m.reserved)
    {t : Tag}
    (hOne : t.refCount = 1) :
    Owned m (Function.update tag o (tags.new m t).1)
      (tags.new m t).2 := by
  rcases hOwned.consistent.new hOne with
    ⟨hReserved, _, hNext⟩
  apply hOwned.update
  · intro hEq
    rw [hEq] at hReserved
    exact hReserved hOld
  · exact ne_held_of_not_mem hReserved
  · rw [lose_of_mem hOld]
    exact hNext

/- The object takes a static tag or none. -/
theorem Owned.static
    (hOwned : Owned m tag tags)
    {b : jlong}
    (hOld : tag o ∈ m.reserved)
    (hNew : b ∈ m.reserved)
    (hHeld : b ≠ m.heldObjectTag) :
    Owned m (Function.update tag o b) tags := by
  by_cases hEq : b = tag o
  · rw [hEq]
    exact hOwned.keep o
  · apply hOwned.update hEq hHeld
    rw [gain_of_mem hNew, lose_of_mem hOld]
    exact hOwned.consistent

variable (hCard : Fintype.card O < refCountSize)
include hCard

omit [DecidableEq O] in
theorem owners_lt_refCountSize
    (tag : O → jlong)
    (a : jlong) :
    owners m.reserved tag a < refCountSize :=
  lt_of_le_of_lt owners_le hCard

/- The object gives its tag up for a static one or none. -/
theorem Owned.unref
    (hOwned : Owned m tag tags)
    {b : jlong}
    (hZero : tag o ≠ 0)
    (hNew : b ∈ m.reserved)
    (hHeld : b ≠ m.heldObjectTag)
    (hNe : b ≠ tag o) :
    ∃ tags',
      tags.unref m (tag o) = some tags' ∧
        Owned m (Function.update tag o b) tags' := by
  rcases hOwned.consistent.unref (hOwned.valid hZero)
      (owners_lt_refCountSize hCard tag _) with
    ⟨tags', hUnref, hNext⟩
  refine ⟨tags', hUnref, hOwned.update hNe hHeld ?_⟩
  rw [gain_of_mem hNew]
  exact hNext

/- An object without a tag of its own shares another's. -/
theorem Owned.share
    (hOwned : Owned m tag tags)
    {p : O}
    (hOld : tag o ∈ m.reserved)
    (hP : owners m.reserved tag (tag p) ≠ 0) :
    ∃ b tags',
      tags.share m (tag p) = some (b, tags') ∧
        Owned m (Function.update tag o b) tags' := by
  rcases hOwned.consistent.exists_dereference (Or.inr hP)
    with ⟨t, hT⟩
  by_cases hStart : t.isStartTag = true
  · refine ⟨_, _, ?_,
      hOwned.new hOld (t := t.copyWithoutStartMarks) rfl⟩
    simp [TagMemory.share, hT, hStart]
  · have hNot := hOwned.consistent.not_mem_reserved hP
    have hNe : tag o ≠ tag p := by
      intro hEq
      rw [hEq] at hOld
      exact hNot hOld
    have hLt :
        owners m.reserved tag (tag p) + 1 < refCountSize :=
      lt_of_le_of_lt (owners_lt hNe) hCard
    rcases hOwned.consistent.ref hP hLt with
      ⟨tags', hRef, hNext⟩
    refine ⟨tag p, tags', ?_, ?_⟩
    · simp [TagMemory.share, hT, hStart, hRef]
    · apply hOwned.update hNe.symm (ne_held_of_not_mem hNot)
      rw [lose_of_mem hOld]
      exact hNext

/- The object's tag is merged with another's. -/
theorem Owned.merge
    (hOwned : Owned m tag tags)
    {p : O}
    (hO : tag o ≠ 0)
    (hP : tag p ≠ 0) :
    ∃ b tags',
      tags.merge m (tag o) (tag p) = some (b, tags') ∧
        Owned m (Function.update tag o b) tags' := by
  have hValid := hOwned.valid hO
  rcases hOwned.consistent.exists_dereference hValid with
    ⟨t, hT⟩
  rcases hOwned.consistent.exists_dereference
      (hOwned.valid hP) with ⟨r, hR⟩
  rcases hOwned.consistent.new (t := .ofMerge t r) rfl with
    ⟨hReserved, hFree, hNext⟩
  have hNe : (tags.new m (.ofMerge t r)).1 ≠ tag o := by
    intro hEq
    rw [hEq] at hReserved hFree
    rcases hValid with hStatic | hCount
    · exact hReserved (mem_reserved_iff.mpr (Or.inr hStatic))
    · exact hCount hFree
  have hGain :
      gain m.reserved (owners m.reserved tag)
          (tags.new m (.ofMerge t r)).1 (tag o) =
        owners m.reserved tag (tag o) := by
    unfold gain
    rw [if_neg hReserved, Function.update_of_ne hNe.symm]
  have hValidNext :
      Valid m
        (gain m.reserved (owners m.reserved tag)
          (tags.new m (.ofMerge t r)).1) (tag o) := by
    unfold Valid
    rw [hGain]
    exact hValid
  have hLt :
      gain m.reserved (owners m.reserved tag)
          (tags.new m (.ofMerge t r)).1 (tag o) <
        refCountSize := by
    rw [hGain]
    exact owners_lt_refCountSize hCard tag _
  rcases hNext.unref hValidNext hLt with
    ⟨tags', hUnref, hLast⟩
  refine ⟨_, tags', ?_, hOwned.update hNe
    (ne_held_of_not_mem hReserved) hLast⟩
  simp [TagMemory.merge, hT, hR, hUnref]

omit hCard in
theorem Owned.setAlreadyReferred
    {p : O}
    {b : jlong}
    {tags' : TagMemory}
    (hNext : Owned m (Function.update tag o b) tags')
    (hP : tag p ∉ m.reserved)
    (hSelf : p = o → b = tag o) :
    ∃ last,
      tags'.setAlreadyReferred m (tag p) = some last ∧
        Owned m (Function.update tag o b) last := by
  have hSame : Function.update tag o b p = tag p := by
    by_cases hEq : p = o
    · rw [hEq, Function.update_self]
      exact hSelf hEq
    · exact Function.update_of_ne hEq _ _
  have hCount :
      owners m.reserved (Function.update tag o b) (tag p) ≠
        0 := by
    have hNot := hP
    rw [← hSame] at hNot ⊢
    exact owners_ne_zero hNot
  rcases hNext.consistent.setAlreadyReferred hCount with
    ⟨last, hSet, hLast⟩
  exact ⟨last, hSet, hLast, hNext.not_held⟩

------------------------------------------------------------
-- Reference Callbacks
------------------------------------------------------------

omit hCard in
/- A callback gives the object a tag that it owns. -/
def Retags
    (m : TagAddresses)
    (tag : O → jlong)
    (o : O)
    (result : Option (jlong × TagMemory)) : Prop :=
  ∃ b tags', result = some (b, tags') ∧
    Owned m (Function.update tag o b) tags'

omit hCard in
theorem Owned.retags_keep
    (hOwned : Owned m tag tags)
    (o : O) :
    Retags m tag o (some (tag o, tags)) :=
  ⟨tag o, tags, rfl, hOwned.keep o⟩

omit hCard [DecidableEq O] in
theorem not_mem_reserved_of_owners
    {a : jlong}
    (hCount : owners m.reserved tag a ≠ 0) :
    a ∉ m.reserved :=
  fun hMem => hCount (if_pos hMem)

/- The referrer is a root or carries the empty tag. -/
theorem Owned.untagged
    (hOwned : Owned m tag tags)
    (o : O)
    (setTagsWithNewInfo : Bool) :
    ∃ b tags',
      handleReferrersWithNoInfo.untagged m (tag o)
          setTagsWithNewInfo tags = some (true, b, tags') ∧
        Owned m (Function.update tag o b) tags' := by
  rcases static_ne m with
    ⟨_, _, hEmptyNew, hEmptyHeld, hNewHeld, _⟩
  unfold handleReferrersWithNoInfo.untagged
  by_cases hZero : tag o = 0
  · have hOld : tag o ∈ m.reserved :=
      mem_reserved_of_zero hZero
    exact ⟨m.emptyTag, tags, if_pos hZero,
      hOwned.static hOld (emptyTag_mem_reserved m)
        hEmptyHeld⟩
  · rw [if_neg hZero]
    by_cases hEmpty : tag o = m.emptyTag
    · exact ⟨tag o, tags, if_pos hEmpty, hOwned.keep o⟩
    · rw [if_neg hEmpty]
      have hValid := hOwned.valid hZero
      rcases hOwned.consistent.exists_dereference hValid with
        ⟨t, hT⟩
      by_cases hReset :
          setTagsWithNewInfo = true ∧
            t.alreadyReferred = true
      · have hNe : m.tagWithNewInfo ≠ tag o := by
          intro hEq
          have hStatic : m.isStatic (tag o) :=
            Or.inr (Or.inl hEq.symm)
          unfold TagMemory.dereference at hT
          rw [if_pos hStatic] at hT
          rw [← Option.some.inj hT] at hReset
          exact absurd hReset.2 Bool.false_ne_true
        rcases hOwned.unref hCard hZero
            (tagWithNewInfo_mem_reserved m) hNewHeld hNe with
          ⟨tags', hUnref, hNext⟩
        exact ⟨m.tagWithNewInfo, tags', by
          simp [hT, hReset, hUnref], hNext⟩
      · rcases
          hOwned.consistent.visitFromUntaggedReferrer hValid
          with ⟨tags', hVisit, hNext⟩
        have hOwned' : Owned m tag tags' :=
          ⟨hNext, hOwned.not_held⟩
        exact ⟨tag o, tags', by
          simp [hT, hReset, hVisit], hOwned'.keep o⟩

theorem Owned.handleReferrersWithNoInfo
    (hOwned : Owned m tag tags)
    (o : O)
    {referrerTag : Option jlong}
    (hReferrer :
      ∀ a, referrerTag = some a → ∃ p, tag p = a)
    (setTagsWithNewInfo : Bool) :
    ∃ handled b tags',
      SizesTags.handleReferrersWithNoInfo m referrerTag
          (tag o) setTagsWithNewInfo tags =
        some (handled, b, tags') ∧
      Owned m (Function.update tag o b) tags' ∧
      (handled = false →
        b = tag o ∧ tags' = tags ∧
          ∃ p, referrerTag = some (tag p) ∧
            tag p ∉ m.reserved) := by
  cases referrerTag with
  | none =>
      rcases hOwned.untagged hCard o setTagsWithNewInfo with
        ⟨b, tags', hResult, hNext⟩
      exact ⟨true, b, tags', hResult, hNext,
        fun hFalse => absurd hFalse.symm Bool.false_ne_true⟩
  | some a =>
      rcases hReferrer a rfl with ⟨p, hP⟩
      subst hP
      unfold SizesTags.handleReferrersWithNoInfo
      by_cases hEmpty : tag p = m.emptyTag
      · rcases hOwned.untagged hCard o setTagsWithNewInfo
          with ⟨b, tags', hResult, hNext⟩
        exact ⟨true, b, tags', by simp [hEmpty, hResult],
          hNext,
          fun hFalse =>
            absurd hFalse.symm Bool.false_ne_true⟩
      · by_cases hSkip : tag p = m.tagWithNewInfo ∨ tag p = 0
        · exact ⟨true, tag o, tags, by simp [hEmpty, hSkip],
            hOwned.keep o,
            fun hFalse =>
              absurd hFalse.symm Bool.false_ne_true⟩
        · rcases hOwned.exists_classTag p with ⟨c, hC⟩
          refine ⟨c.isSome, tag o, tags,
            by simp [hEmpty, hSkip, hC], hOwned.keep o, ?_⟩
          intro _
          refine ⟨rfl, rfl, p, rfl, ?_⟩
          rw [not_or] at hSkip
          rcases hOwned.cases p with h | h | h | h
          · exact absurd h hSkip.2
          · exact absurd h hEmpty
          · exact absurd h hSkip.1
          · exact not_mem_reserved_of_owners h

theorem Owned.getTagsWithNewInfo
    (hOwned : Owned m tag tags)
    {args : ReferenceArguments jlong}
    (hTag : args.tag = tag o)
    (hReferrer :
      ∀ a, args.referrerTag = some a → ∃ p, tag p = a) :
    Retags m tag o
      (SizesTags.getTagsWithNewInfo m args tags) := by
  rcases static_ne m with ⟨_, _, _, _, hNewHeld, _⟩
  unfold SizesTags.getTagsWithNewInfo
  rw [hTag]
  by_cases hSkip :
      args.refKind.isJni = true ∨ tag o = m.tagWithNewInfo
  · rw [if_pos hSkip]
    exact hOwned.retags_keep o
  · rw [if_neg hSkip]
    rw [not_or] at hSkip
    rcases hOwned.handleReferrersWithNoInfo hCard o hReferrer
        true with ⟨handled, b, tags', hHandle, hNext, hRest⟩
    rw [hHandle]
    cases handled with
    | true => exact ⟨b, tags', rfl, hNext⟩
    | false =>
        rcases hRest rfl with ⟨rfl, rfl, p, hArg, hP⟩
        have hCount := owners_ne_zero hP
        by_cases hZero : tag o = 0
        · have hOld : tag o ∈ m.reserved :=
            mem_reserved_of_zero hZero
          have hSelf : ∀ b, p = o → b = tag o := by
            intro b hEq
            rw [hEq] at hP
            exact absurd hOld hP
          rcases hOwned.share hCard hOld hCount with
            ⟨b, next, hShare, hShared⟩
          rcases hShared.setAlreadyReferred hP
              (hSelf b) with ⟨last, hSet, hLast⟩
          exact ⟨b, last, by
            simp [hArg, hZero, hShare, hSet], hLast⟩
        · have hNeP : tag p ≠ 0 :=
            ne_zero_of_not_mem hP
          rcases hOwned.exists_tagsAreValidForMerge hZero hNeP
            with ⟨valid, hValid, hSame⟩
          cases valid with
          | false =>
              rcases (hOwned.keep o).setAlreadyReferred hP
                  (fun _ => rfl) with
                ⟨last, hSet, hLast⟩
              exact ⟨tag o, last, by
                simp [hArg, hZero, hValid, hSet], hLast⟩
          | true =>
              have hNe : p ≠ o := by
                intro hEq
                rw [hEq] at hSame
                exact absurd (hSame rfl).symm
                  Bool.false_ne_true
              rcases hOwned.consistent.exists_dereference
                  (hOwned.valid hZero) with ⟨t, hT⟩
              by_cases hReferred : t.alreadyReferred = true
              · rcases hOwned.unref hCard hZero
                    (tagWithNewInfo_mem_reserved m) hNewHeld
                    (Ne.symm hSkip.2) with
                  ⟨next, hUnref, hDropped⟩
                rcases hDropped.setAlreadyReferred hP
                    (fun hEq => absurd hEq hNe) with
                  ⟨last, hSet, hLast⟩
                exact ⟨m.tagWithNewInfo, last, by
                  simp [hArg, hZero, hValid, hT, hReferred,
                    hUnref, hSet], hLast⟩
              · rcases hOwned.merge hCard hZero hNeP with
                  ⟨b, next, hMerge, hMerged⟩
                rcases hMerged.setAlreadyReferred hP
                    (fun hEq => absurd hEq hNe) with
                  ⟨last, hSet, hLast⟩
                exact ⟨b, last, by
                  simp [hArg, hZero, hValid, hT, hReferred,
                    hMerge, hSet], hLast⟩

omit hCard [DecidableEq O] in
/- The set of tags with new info owns nothing. -/
theorem Owned.withNewInfo
    (hOwned : Owned m tag tags)
    (tagsWithNewInfo : Finset jlong) :
    Owned m tag
      { tags with tagsWithNewInfo := tagsWithNewInfo } :=
  ⟨⟨hOwned.consistent.counted, hOwned.consistent.reserved,
    hOwned.consistent.balance⟩, hOwned.not_held⟩

theorem Owned.visitReference
    (hOwned : Owned m tag tags)
    {args : ReferenceArguments jlong}
    (hTag : args.tag = tag o)
    (hReferrer :
      ∀ a, args.referrerTag = some a → ∃ p, tag p = a) :
    Retags m tag o
      (SizesTags.visitReference m args tags) := by
  unfold SizesTags.visitReference
  rw [hTag]
  by_cases hSkip : args.refKind.isJni = true
  · rw [if_pos hSkip]
    exact hOwned.retags_keep o
  · rw [if_neg hSkip]
    rcases hOwned.handleReferrersWithNoInfo hCard o hReferrer
        false with ⟨handled, b, tags', hHandle, hNext, hRest⟩
    rw [hHandle]
    cases handled with
    | true => exact ⟨b, tags', rfl, hNext⟩
    | false =>
        rcases hRest rfl with ⟨rfl, rfl, p, hArg, hP⟩
        have hCount := owners_ne_zero hP
        by_cases hZero : tag o = 0
        · have hOld : tag o ∈ m.reserved :=
            mem_reserved_of_zero hZero
          rcases hOwned.share hCard hOld hCount with
            ⟨b, next, hShare, hShared⟩
          exact ⟨b, next, by simp [hArg, hZero, hShare],
            hShared⟩
        · by_cases hNew : tag o = m.tagWithNewInfo
          · have hOld : tag o ∈ m.reserved :=
              mem_reserved_of_reset hNew
            rcases hOwned.share hCard hOld hCount with
              ⟨b, next, hShare, hShared⟩
            have hNewZero := (static_ne m).2.1
            refine ⟨b, next.insertNewInfo b, ?_,
              hShared.withNewInfo _⟩
            simp [hArg, hNew, hNewZero, hShare]
          · have hNeP : tag p ≠ 0 :=
              ne_zero_of_not_mem hP
            rcases hOwned.exists_tagsAreValidForMerge hZero
                hNeP with ⟨valid, hValid, _⟩
            cases valid with
            | false =>
                exact ⟨tag o, tags', by
                  simp [hArg, hZero, hNew, hValid],
                  hOwned.keep o⟩
            | true =>
                have hErased :
                    Owned m tag
                      (tags'.eraseNewInfo (tag o)) :=
                  hOwned.withNewInfo _
                rcases hErased.merge hCard hZero hNeP with
                  ⟨b, next, hMerge, hMerged⟩
                refine ⟨b, next.insertNewInfo b, ?_,
                  hMerged.withNewInfo _⟩
                simp [hArg, hZero, hNew, hValid, hMerge]

theorem Owned.spreadInfo
    (hOwned : Owned m tag tags)
    {args : ReferenceArguments jlong}
    (hTag : args.tag = tag o)
    (hReferrer : ∃ p, args.referrerTag = some (tag p)) :
    Retags m tag o
      (SizesTags.spreadInfo m args tags) := by
  rcases hReferrer with ⟨p, hArg⟩
  unfold SizesTags.spreadInfo
  rw [hTag]
  by_cases hSkip : args.refKind.isJni = true ∨ tag o = 0
  · rw [if_pos hSkip]
    exact hOwned.retags_keep o
  · rw [if_neg hSkip]
    rw [not_or] at hSkip
    by_cases hZero : tag p = 0
    · exact ⟨tag o, tags, by simp [hArg, hZero],
        hOwned.keep o⟩
    · have hErased :
          Owned m tag (tags.eraseNewInfo (tag o)) :=
        hOwned.withNewInfo _
      by_cases hSame : tag p = tag o
      · exact ⟨tag o, tags.eraseNewInfo (tag o), by
          simp [hArg, hSame, hSkip.2], hErased.keep o⟩
      · rcases hErased.exists_shouldMerge hSkip.2 hZero with
          ⟨merged, hShould⟩
        cases merged with
        | false =>
            exact ⟨tag o, tags.eraseNewInfo (tag o), by
              simp [hArg, hZero, hSame, hShould],
              hErased.keep o⟩
        | true =>
            rcases hErased.merge hCard hSkip.2 hZero with
              ⟨b, next, hMerge, hMerged⟩
            exact ⟨b, next, by
              simp [hArg, hZero, hSame, hShould, hMerge],
              hMerged⟩

------------------------------------------------------------
-- Iteration Callbacks
------------------------------------------------------------

theorem Owned.clearTag
    (hOwned : Owned m tag tags)
    (o : O) :
    ∃ tags',
      SizesTags.clearTag m (tag o) tags = some (0, tags') ∧
        Owned m (Function.update tag o 0) tags' := by
  unfold SizesTags.clearTag
  by_cases hZero : tag o = 0
  · refine ⟨tags, by simp [hZero], ?_⟩
    have hKeep := hOwned.keep o
    rw [hZero] at hKeep
    exact hKeep
  · rcases hOwned.unref hCard hZero (zero_mem_reserved m)
        (Ne.symm (static_ne m).2.2.2.2.2) (Ne.symm hZero)
      with ⟨tags', hUnref, hNext⟩
    exact ⟨tags', by simp [hZero, hUnref], hNext⟩

omit hCard in
theorem Owned.retagStartObjects
    (hOwned : Owned m tag tags)
    (o c : O) :
    Retags m tag o
      (SizesTags.retagStartObjects m (tag c) (tag o)
        tags) := by
  rcases hOwned.exists_classTag c with ⟨classTag, hC⟩
  unfold SizesTags.retagStartObjects
  rw [hC]
  cases classTag with
  | none => exact hOwned.retags_keep o
  | some ids =>
      by_cases hNew : tag o = m.tagWithNewInfo
      · have hOld : tag o ∈ m.reserved :=
          mem_reserved_of_reset hNew
        have hNext :=
          hOwned.new (t := .startTag ids) hOld rfl
        exact ⟨_,
          (tags.new m (.startTag ids)).2.insertNewInfo
            (tags.new m (.startTag ids)).1,
          by simp [hNew], hNext.withNewInfo _⟩
      · exact ⟨tag o, tags, by simp [hNew], hOwned.keep o⟩

omit hCard in
theorem Owned.tagObjectOfTaggedClass
    (hOwned : Owned m tag tags)
    (o c : O) :
    Retags m tag o
      (SizesTags.tagObjectOfTaggedClass m (tag c) (tag o)
        tags) := by
  rcases hOwned.exists_classTag c with ⟨classTag, hC⟩
  unfold SizesTags.tagObjectOfTaggedClass
  rw [hC]
  cases classTag with
  | none => exact hOwned.retags_keep o
  | some ids =>
      by_cases hZero : tag o = 0
      · have hOld : tag o ∈ m.reserved :=
          mem_reserved_of_zero hZero
        exact ⟨_, _, by simp [hZero],
          hOwned.new (t := .startTag ids) hOld rfl⟩
      · exact ⟨tag o, tags, by simp [hZero], hOwned.keep o⟩

omit hCard [DecidableEq O] in
theorem Owned.exists_visitedInfos
    (hOwned : Owned m tag tags)
    (o : O) :
    ∃ infos, visitedInfos m (tag o) tags = some infos := by
  unfold visitedInfos
  by_cases hZero : tag o = 0
  · exact ⟨[], if_pos hZero⟩
  · rcases hOwned.consistent.exists_dereference
        (hOwned.valid hZero) with ⟨t, hT⟩
    rw [if_neg hZero, hT]
    exact ⟨t.array.infos, rfl⟩

------------------------------------------------------------
-- Start Tags
------------------------------------------------------------

omit hCard in
/- A tag for a listed object, or infos for its old tag. -/
theorem Owned.createTagForObject
    (hOwned : Owned m tag tags)
    (index : Nat)
    (hNe : tag o ≠ m.emptyTag) :
    ∃ b tags',
      SizesTags.createTagForObject m index (tag o) tags =
          some (b, tags') ∧
        Owned m (Function.update tag o b) tags' ∧
        b ≠ m.emptyTag := by
  let t : Tag :=
    .ofInfo index (createState true true false false)
  rcases hOwned.consistent.new (t := t) rfl with
    ⟨hReserved, hFree, hNext⟩
  by_cases hOld : tag o ≠ 0 ∧ tag o ≠ m.tagWithNewInfo
  · have hCount :
        owners m.reserved tag (tag o) ≠ 0 := by
      rcases hOwned.cases o with h | h | h | h
      · exact absurd h hOld.1
      · exact absurd h hNe
      · exact absurd h hOld.2
      · exact h
    have hNeOld : tag o ≠ (tags.new m t).1 := by
      intro hEq
      rw [hEq] at hCount
      exact hCount hFree
    have hGain :
        gain m.reserved (owners m.reserved tag)
            (tags.new m t).1 =
          Function.update (owners m.reserved tag)
            (tags.new m t).1 1 := by
      unfold gain
      rw [if_neg hReserved, hFree]
    rw [hGain] at hNext
    have hDereference :
        (tags.new m t).2.dereference m (tags.new m t).1 =
          some t := by
      rw [hNext.dereference_eq (by
        rw [Function.update_self]
        exact one_ne_zero)]
      change (tags.store.create m.alloc t).get _ = some t
      rw [Store.get_create]
      exact if_pos rfl
    have hCountNext :
        Function.update (owners m.reserved tag)
            (tags.new m t).1 1 (tag o) ≠ 0 := by
      rw [Function.update_of_ne hNeOld]
      exact hCount
    rcases hNext.modify hCountNext
        (f := fun old =>
          { old with array := old.array.extend t.array })
        (fun _ => rfl) with ⟨extended, hModify, hExtended⟩
    have hLive :
        extended.store.get (tags.new m t).1 ≠ none := by
      intro hNone
      have hZero := hExtended.counted.free _ hNone
      rw [Function.update_self] at hZero
      exact one_ne_zero hZero
    have hBack :
        Function.update
            (Function.update (owners m.reserved tag)
              (tags.new m t).1 1) (tags.new m t).1 0 =
          owners m.reserved tag := by
      rw [Function.update_idem, ← hFree,
        Function.update_eq_self]
    have hDeleted :
        Consistent m (owners m.reserved tag)
          (extended.deleteTag (tags.new m t).1) := by
      refine ⟨?_, hOwned.consistent.reserved, ?_⟩
      · have hCounted :=
          hExtended.counted.delete (a := (tags.new m t).1)
        rw [hBack] at hCounted
        exact hCounted
      · have hSize := Store.size_delete hLive
        have hBalance := hExtended.balance
        change extended.sizesTagBalance - 1 =
          ((extended.store.delete
            (tags.new m t).1).size : Int)
        rw [hBalance, ← hSize]
        push_cast
        exact add_sub_cancel_right _ _
    refine ⟨tag o, extended.deleteTag (tags.new m t).1, ?_,
      ?_, hNe⟩
    · unfold SizesTags.createTagForObject
      simp only [t] at hDereference hModify
      simp [hOld, hDereference, hModify, t]
    · rw [Function.update_eq_self]
      exact ⟨hDeleted, hOwned.not_held⟩
  · have hMem : tag o ∈ m.reserved := by
      by_cases hZero : tag o = 0
      · rw [hZero]
        exact zero_mem_reserved m
      · have hEq : tag o = m.tagWithNewInfo := by
          by_contra hNot
          exact hOld ⟨hZero, hNot⟩
        rw [hEq]
        exact tagWithNewInfo_mem_reserved m
    refine ⟨_, _, if_neg hOld, hOwned.new hMem rfl, ?_⟩
    intro hEq
    apply hReserved
    change (tags.new m t).1 = m.emptyTag at hEq
    rw [hEq]
    exact emptyTag_mem_reserved m

omit hCard [DecidableEq O] [Fintype O] in
/- Before the traversals, only class objects are tagged. -/
def ClassTagged
    (tag : O → jlong)
    (tags : TagMemory) : Prop :=
  ∀ o, tag o = 0 ∨
    ∃ t, tags.store.get (tag o) = some t ∧ t.ids ≠ none

omit hCard in
theorem Owned.tagClass
    (hOwned : Owned m tag tags)
    (hClass : ClassTagged tag tags)
    (index : Nat)
    (o : O) :
    ∃ b tags',
      SizesTags.tagClass m index (tag o) tags =
          some (b, tags') ∧
        Owned m (Function.update tag o b) tags' ∧
        ClassTagged (Function.update tag o b) tags' := by
  rcases hClass o with hZero | ⟨t, hT, hIds⟩
  · have hMem : tag o ∈ m.reserved := by
      rw [hZero]
      exact zero_mem_reserved m
    refine ⟨_, _, ?_,
      hOwned.new (t := .ofClass index) hMem rfl, ?_⟩
    · simp [SizesTags.tagClass,
        TagMemory.tagToClassTagPointer, hZero]
    · intro p
      have hGet :
          ∀ a, (tags.new m (.ofClass index)).2.store.get a =
            if a = (tags.new m (.ofClass index)).1 then
              some (.ofClass index)
            else tags.store.get a :=
        fun a => Store.get_create m.alloc a
      by_cases hEq : p = o
      · refine Or.inr ⟨.ofClass index, ?_,
          Option.some_ne_none _⟩
        rw [hEq, Function.update_self, hGet, if_pos rfl]
      · rw [Function.update_of_ne hEq]
        refine (hClass p).imp_right ?_
        intro hLive
        rcases hLive with ⟨r, hR, hIds⟩
        refine ⟨r, ?_, hIds⟩
        have hNe :
            tag p ≠ (tags.new m (.ofClass index)).1 := by
          intro hSame
          have hFree :
              tags.store.get
                  (tags.new m (.ofClass index)).1 = none :=
            Store.get_nextAddress m.alloc
          rw [hSame, hFree] at hR
          cases hR
        rw [hGet, if_neg hNe]
        exact hR
  · rcases Option.ne_none_iff_exists'.mp hIds with
      ⟨ids, hSome⟩
    have hCount :
        owners m.reserved tag (tag o) ≠ 0 :=
      (hOwned.consistent.counted.live _ t hT).2
    have hNot :=
      hOwned.consistent.not_mem_reserved hCount
    have hNeZero : tag o ≠ 0 := by
      intro hEq
      rw [hEq] at hNot
      exact hNot (zero_mem_reserved m)
    let f : Tag → Tag := fun t =>
      { t with ids := some (ids ++ [index % querySize]) }
    rcases hOwned.consistent.modify hCount (f := f)
        (fun _ => rfl) with ⟨tags', hModify, hNext⟩
    have hPointer :
        tags.tagToClassTagPointer m (tag o) =
          some (some ids) := by
      unfold TagMemory.tagToClassTagPointer
      rw [if_neg hNeZero,
        hOwned.consistent.dereference_eq hCount, hT]
      exact congrArg some hSome
    refine ⟨tag o, tags', ?_, ?_, ?_⟩
    · simp [SizesTags.tagClass, hPointer, f] at hModify ⊢
      simp [hModify]
    · rw [Function.update_eq_self]
      exact ⟨hNext, hOwned.not_held⟩
    · rw [Function.update_eq_self]
      have hLive : tags.store.get (tag o) ≠ none := by
        rw [hT]
        exact Option.some_ne_none t
      have hStore :
          tags'.store = tags.store.set (tag o) (f t) := by
        unfold TagMemory.modify at hModify
        rw [if_neg (hOwned.consistent.not_isStatic hCount),
          hT] at hModify
        rw [← Option.some.inj hModify]
      intro p
      refine (hClass p).imp_right ?_
      intro hOld
      rw [hStore, Store.get_set hLive]
      by_cases hSame : tag p = tag o
      · rw [if_pos hSame]
        exact ⟨f t, rfl, Option.some_ne_none _⟩
      · rw [if_neg hSame]
        exact hOld

end Owned

end SizesTags

end MemoryAgent
