import Mathlib.Algebra.Order.BigOperators.Group.Finset
import MemoryAgent.Sizes.Tags.ClassRuns
import MemoryAgent.Sizes.Tags.ObjectRuns

/-
  The two ways to compute shallow sizes of classes: by the
  class tags of the objects' classes, and by the start infos
  of the instances.  An instance that is a tagged class
  object itself is missing in the second one.

  Key definitions include:
    * `SizesTags.calculateShallowAndRetainedSizes`
    * `SizesTags.calculateShallowSizes`
    * `SizesTags.ClassesApart`

  Main results:
    * `SizesTags.Query.Started.shallowSizes`
    * `SizesTags.ClassTags.shallowSizes`
    * `SizesTags.shallowSizes_eq_iff`
-/

------------------------------------------------------------
-- Sums of Shallow Sizes
------------------------------------------------------------

namespace MemoryAgent

namespace SizesTags

open RecordStore TagMemory TagInfoArray

section Sums

variable {O : Type}

/-
  `IterateThroughHeap` with
  `visitObjectForShallowAndRetainedSize`.
-/
def calculateShallowAndRetainedSizes
    (m : TagAddresses)
    (h : Heap O)
    (tag : O → jlong)
    (tags : TagMemory)
    (order : List O)
    (count : Nat) : Option (List jlong × List jlong) :=
  order.foldlM
    (fun arrays o =>
      visitObjectForShallowAndRetainedSize m (h.size o)
        (tag o) tags arrays)
    (List.replicate count 0, List.replicate count 0)

/- `IterateThroughHeap` with `calculateShallowSize`. -/
def calculateShallowSizes
    (m : TagAddresses)
    (h : Heap O)
    (tag : O → jlong)
    (tags : TagMemory)
    (order : List O)
    (count : Nat) : Option (List jlong) :=
  order.foldlM
    (fun sizes o =>
      calculateShallowSize m (tag (h.classOf o)) (h.size o)
        tags sizes)
    (List.replicate count 0)

theorem foldl_pair
    {R R' : Type}
    (f : R → O → R)
    (g : R' → O → R')
    (order : List O)
    (r : R)
    (r' : R') :
    order.foldl
        (fun arrays o => (f arrays.1 o, g arrays.2 o))
        (r, r') =
      (order.foldl f r, order.foldl g r') := by
  induction order generalizing r r' with
  | nil => rfl
  | cons o order ih => exact ih (f r o) (g r' o)

/- The loop of `calculateShallowSize`. -/
theorem foldl_modify_getElem?
    {ids : List Nat}
    (hNodup : ids.Nodup)
    (size : jlong)
    (sizes : List jlong)
    (i : Nat) :
    (ids.foldl
        (fun sizes id => sizes.modify id (· + size))
        sizes)[i]? =
      sizes[i]?.map
        (· + if i ∈ ids then size else 0) := by
  induction ids generalizing sizes with
  | nil => simp
  | cons id ids ih =>
      rcases List.nodup_cons.mp hNodup with ⟨hNot, hTail⟩
      rw [List.foldl_cons, ih hTail]
      by_cases hEq : id = i
      · subst hEq
        rw [List.getElem?_modify_eq, if_neg hNot,
          if_pos List.mem_cons_self]
        cases sizes[id]? with
        | none => rfl
        | some x => simp
      · rw [List.getElem?_modify_ne _ _ hEq]
        simp only [List.mem_cons, Ne.symm hEq, false_or]

variable [Fintype O]

/- The sizes of the objects that an index belongs to. -/
def sumFor
    (h : Heap O)
    (starts : O → List Nat)
    (i : Nat) : jlong :=
  ∑ o, if i ∈ starts o then h.size o else 0

variable [DecidableEq O]

/- A sum over an iteration that skips no summand. -/
theorem sum_map_eq
    {order : List O}
    (hNodup : order.Nodup)
    (f : O → jlong)
    (hSkip : ∀ o, o ∉ order → f o = 0) :
    (order.map f).sum = ∑ o, f o := by
  rw [← List.sum_toFinset f hNodup]
  apply Finset.sum_subset (Finset.subset_univ _)
  intro o _ hNot
  exact hSkip o (fun hMem => hNot (List.mem_toFinset.mpr hMem))

variable {q : Query O}
variable {m : TagAddresses}
variable {h : Heap O}
variable {ids : O → List Nat}
variable {tag : O → jlong}
variable {tags : TagMemory}
variable {order : List O}

omit [DecidableEq O] in
/- The start infos of an object are those of its tag. -/
theorem Query.Started.startIndices
    (hOwned : Owned m tag tags)
    (hStarted : q.Started m false tag tags)
    (o : O) :
    TagInfoArray.startIndices (carriedInfos m tag tags o) =
      q.starts o := by
  have hHolds := hStarted o
  by_cases hZero : tag o = 0
  · rw [carriedInfos_zero hZero,
      hHolds.starts_eq_nil (Or.inl hZero)]
    rfl
  · rcases hOwned.exists_content hZero with ⟨c, hContent⟩
    rw [carriedInfos_eq hContent]
    by_cases hNew : tag o = m.tagWithNewInfo
    · rw [hHolds.starts_eq_nil (Or.inr ⟨rfl, hNew⟩)]
      rw [hNew, contentAt_of_static (Or.inr (Or.inl rfl))]
        at hContent
      rw [← Option.some.inj hContent]
      rfl
    · exact (hHolds.marks hNew c hContent).1

/- The shallow sizes by the start infos of instances. -/
theorem Query.Started.shallowSizes
    (hOwned : Owned m tag tags)
    (hStarted : q.Started m false tag tags)
    (h : Heap O)
    (hNodup : order.Nodup)
    (hOrder : ∀ o, o ∈ order ↔ tag o ≠ 0) :
    ∃ shallow retained,
      calculateShallowAndRetainedSizes m h tag tags order
          q.count =
        some (shallow, retained) ∧
      ∀ i : Nat, shallow[i]? =
        if i < q.count then some (sumFor h q.starts i)
        else none := by
  have hIncreasing :
      ∀ o, Increasing (carriedInfos m tag tags o) :=
    fun o => (hStarted.fits hOwned o).increasing
  have hTerm :
      ∀ i o,
        sizeFor isStartObject (h.size o)
            (carriedInfos m tag tags o) i =
          if i ∈ q.starts o then h.size o else 0 := by
    intro i o
    unfold sizeFor
    have hIff :
        (stateAt (carriedInfos m tag tags o) i).any
            isStartObject = true ↔
          i ∈ q.starts o := by
      rw [Option.any_eq_true,
        ← hStarted.startIndices hOwned o,
        mem_startIndices_iff (hIncreasing o)]
    simp only [hIff]
  have hEq :
      calculateShallowAndRetainedSizes m h tag tags order
          q.count =
        some (order.foldl
          (fun arrays o =>
            (addSizes isStartObject (h.size o)
                (carriedInfos m tag tags o) arrays.1,
              addSizes isRetained (h.size o)
                (carriedInfos m tag tags o) arrays.2))
          (List.replicate q.count 0,
            List.replicate q.count 0)) := by
    apply foldlM_some
    intro arrays o
    unfold visitObjectForShallowAndRetainedSize
    rw [hOwned.visitedInfos_eq o]
    rfl
  rw [foldl_pair
    (fun result o =>
      addSizes isStartObject (h.size o)
        (carriedInfos m tag tags o) result)
    (fun result o =>
      addSizes isRetained (h.size o)
        (carriedInfos m tag tags o) result)] at hEq
  refine ⟨_, _, hEq, ?_⟩
  intro i
  rw [foldl_addSizes_getElem? hIncreasing,
    List.getElem?_replicate]
  by_cases hLt : i < q.count
  · rw [if_pos hLt, if_pos hLt, Option.map_some, zero_add]
    simp only [hTerm]
    rw [sum_map_eq hNodup]
    · rfl
    · intro o hNot
      rw [hOrder o, not_not] at hNot
      rw [(hStarted o).starts_eq_nil (Or.inl hNot)]
      exact if_neg List.not_mem_nil
  · rw [if_neg hLt, if_neg hLt]
    rfl

/- The shallow sizes by the tags of the classes. -/
theorem ClassTags.shallowSizes
    (hOwned : Owned m tag tags)
    (hClass : ClassTags m ids tag tags)
    (hIds : ∀ c, (ids c).Nodup)
    (h : Heap O)
    (count : Nat)
    (hNodup : order.Nodup)
    (hOrder : ∀ o, o ∈ order ↔ tag (h.classOf o) ≠ 0) :
    ∃ sizes,
      calculateShallowSizes m h tag tags order count =
        some sizes ∧
      ∀ i : Nat, sizes[i]? =
        if i < count then
          some (sumFor h (fun o => ids (h.classOf o)) i)
        else none := by
  let step : List jlong → O → List jlong :=
    fun sizes o =>
      (ids (h.classOf o)).foldl
        (fun sizes id => sizes.modify id (· + h.size o))
        sizes
  have hEq :
      calculateShallowSizes m h tag tags order count =
        some (order.foldl step (List.replicate count 0)) := by
    apply foldlM_some
    intro sizes o
    unfold calculateShallowSize
    rw [hClass.tagToClassTagPointer_eq hOwned]
    by_cases hNil : ids (h.classOf o) = []
    · rw [if_pos hNil]
      simp [step, hNil]
    · rw [if_neg hNil]
      rfl
  have hFold :
      ∀ (sizes : List jlong) (i : Nat),
        (order.foldl step sizes)[i]? =
          sizes[i]?.map
            (· + (order.map (fun o =>
              if i ∈ ids (h.classOf o) then h.size o
              else 0)).sum) := by
    intro sizes i
    clear hNodup hOrder hEq
    induction order generalizing sizes with
    | nil => simp
    | cons o order ih =>
        rw [List.foldl_cons, ih,
          foldl_modify_getElem? (hIds _), List.map_cons,
          List.sum_cons]
        cases sizes[i]? with
        | none => rfl
        | some x => simp [add_assoc]
  refine ⟨_, hEq, ?_⟩
  intro i
  rw [hFold, List.getElem?_replicate]
  by_cases hLt : i < count
  · rw [if_pos hLt, if_pos hLt, Option.map_some, zero_add,
      sum_map_eq hNodup]
    · rfl
    · intro o hNot
      rw [hOrder o, not_not] at hNot
      have hNil : ids (h.classOf o) = [] := by
        apply hClass.ids_eq_nil
        rw [hNot]
        exact plain_zero
      rw [hNil]
      exact if_neg List.not_mem_nil
  · rw [if_neg hLt, if_neg hLt]
    rfl

end Sums

------------------------------------------------------------
-- Tagged Class Objects
------------------------------------------------------------

section Apart

variable {O : Type}
variable {h : Heap O}
variable {found : O → List O}
variable {classes : List O}

/-
  No class object that is found for a listed class has a
  class that is found for a listed class.
-/
def ClassesApart
    (h : Heap O)
    (found : O → List O)
    (classes : List O) : Prop :=
  ∀ c ∈ classes, ∀ d ∈ classes, ∀ o ∈ found c,
    h.classOf o ∉ found d

variable [DecidableEq O]

theorem classIds_ne_nil_iff
    {o : O} :
    classIds found classes o ≠ [] ↔
      ∃ c ∈ classes, o ∈ found c := by
  constructor
  · intro hNe
    rcases List.exists_mem_of_ne_nil _ hNe with ⟨i, hMem⟩
    rcases mem_classIds_iff.mp hMem with ⟨c, hAt, hO⟩
    exact ⟨c, List.mem_of_getElem? hAt, hO⟩
  · rintro ⟨c, hC, hO⟩
    rcases List.getElem?_of_mem hC with ⟨i, hAt⟩
    exact List.ne_nil_of_mem
      (mem_classIds_iff.mpr ⟨c, hAt, hO⟩)

theorem classesApart_iff :
    ClassesApart h found classes ↔
      ∀ o, classIds found classes o ≠ [] →
        classIds found classes (h.classOf o) = [] := by
  constructor
  · intro hApart o hNe
    by_contra hClass
    rcases classIds_ne_nil_iff.mp hNe with ⟨c, hC, hO⟩
    rcases classIds_ne_nil_iff.mp hClass with ⟨d, hD, hK⟩
    exact hApart c hC d hD o hO hK
  · intro hApart c hC d hD o hO hK
    have hNe := classIds_ne_nil_iff.mpr ⟨c, hC, hO⟩
    exact classIds_ne_nil_iff.mpr ⟨d, hD, hK⟩
      (hApart o hNe)

variable [Fintype O]

omit [DecidableEq O] in
/- The sums differ by the sizes of such class objects. -/
theorem sumFor_eq_iff
    (h : Heap O)
    (ids : O → List Nat) :
    (∀ i, sumFor h
        (fun o =>
          if ids o = [] then ids (h.classOf o) else []) i =
        sumFor h (fun o => ids (h.classOf o)) i) ↔
      ∀ o, ids o ≠ [] → ids (h.classOf o) = [] := by
  constructor
  · intro hSums o hNe
    by_contra hClass
    rcases List.exists_mem_of_ne_nil _ hClass with ⟨i, hMem⟩
    have hLe :
        ∀ p ∈ Finset.univ,
          (if i ∈ (if ids p = [] then ids (h.classOf p)
              else []) then h.size p else 0) ≤
            if i ∈ ids (h.classOf p) then h.size p
            else 0 := by
      intro p _
      have hPos := Int.le_of_lt (h.size_pos p)
      by_cases hP : ids p = []
      · rw [if_pos hP]
      · rw [if_neg hP, if_neg List.not_mem_nil]
        split
        · exact hPos
        · exact Int.le_refl 0
    have hTerms :=
      (Finset.sum_eq_sum_iff_of_le hLe).mp (hSums i) o
        (Finset.mem_univ o)
    rw [if_neg hNe, if_neg List.not_mem_nil, if_pos hMem]
      at hTerms
    exact absurd hTerms (Int.ne_of_lt (h.size_pos o))
  · intro hApart i
    unfold sumFor
    apply Finset.sum_congr rfl
    intro o _
    by_cases hNil : ids o = []
    · simp only [hNil, if_true]
    · simp only [hNil, if_false, hApart o hNil]

end Apart

------------------------------------------------------------
-- Agreement
------------------------------------------------------------

/-
  Two runs for the same classes that are not interrupted
  have the same shallow sizes just in case that no tagged
  class object is an instance of a tagged class.
-/
theorem shallowSizes_eq_iff
    {O : Type}
    [Fintype O]
    [DecidableEq O]
    (m m' : TagAddresses)
    (h : Heap O)
    (found : O → List O)
    (classes order order' collected collected' : List O)
    (s s' next next' : State O)
    (work work' : Work O)
    (hCard : Fintype.card O < refCountSize)
    (hFound : ∀ c, (found c).Nodup)
    (hLength : classes.length < 65536)
    (hRun :
      Uninterrupted m h
        (.getShallowAndRetainedSizeByClasses
          (taggedClasses found classes)) s)
    (hPoint :
      s.point =
        .running work
          [.iterate .visitObjectForShallowAndRetainedSize]
          collected)
    (hBegin : execute m s (.begin order) = some next)
    (hRun' :
      Uninterrupted m' h
        (.getShallowSizeByClasses
          (taggedClasses found classes)) s')
    (hPoint' :
      s'.point =
        .running work' [.iterate .calculateShallowSize]
          collected')
    (hBegin' : execute m' s' (.begin order') = some next') :
    ∃ tags tags' shallow retained sizes,
      s.data.user = some tags ∧
      s'.data.user = some tags' ∧
      calculateShallowAndRetainedSizes m h s.data.tag tags
          order classes.length =
        some (shallow, retained) ∧
      calculateShallowSizes m' h s'.data.tag tags' order'
          classes.length =
        some sizes ∧
      (shallow = sizes ↔ ClassesApart h found classes) := by
  have hLe : classes.length ≤ 65535 :=
    Nat.le_of_lt_succ hLength
  let q := Query.ofClasses h found classes hFound hLe
  let ids := classIds found classes
  have hBound : ∀ c, ∀ i ∈ ids c, i < querySize :=
    fun c i hMem => (classIds_lt hMem).trans hLength
  have hPhases :
      Phases m h
        (.getShallowAndRetainedSizeByClasses
          (taggedClasses found classes))
        (ClassPhase q m ids
          .visitObjectForShallowAndRetainedSize) :=
    classPhases rfl rfl (fun _ => rfl) hBound (fun _ => rfl)
      reads_visitObjectForShallowAndRetainedSize
  have hPhases' :
      Phases m' h
        (.getShallowSizeByClasses
          (taggedClasses found classes))
        (ShallowPhase m' ids) :=
    shallowPhases (fun _ => rfl) hBound
  rcases hRun.phase hPhases hCard with
    ⟨tags, hHeap, ⟨hUser, hOwned, _⟩, _, _, _, hAt, hPhase⟩
  rcases hRun'.phase hPhases' hCard with
    ⟨tags', hHeap', ⟨hUser', hOwned', _⟩, _, _, _, hAt',
      hPhase'⟩
  rw [hPoint] at hAt
  cases hAt
  rw [hPoint'] at hAt'
  cases hAt'
  have hStarted : q.Started m false s.data.tag tags := by
    cases hPhase with
    | walk hStarted => exact hStarted
  rcases order_of_begin hPoint hBegin with
    ⟨_, hNodup, hOrder⟩
  rcases order_of_begin hPoint' hBegin' with
    ⟨hDone', hNodup', hOrder'⟩
  rw [hHeap'] at hOrder'
  have hClass : ClassTags m' ids s'.data.tag tags' := by
    cases hPhase' with
    | tagClasses hTagging =>
        rw [List.isEmpty_iff.mp hDone'] at hTagging
        exact hTagging.classTags.1
  have hIds : ∀ c, (ids c).Nodup :=
    fun c => (classIds_increasing hFound c).imp Nat.ne_of_lt
  rcases hStarted.shallowSizes hOwned h hNodup
      (fun o => (hOrder o).trans decide_eq_true_iff) with
    ⟨shallow, retained, hShallow, hAtShallow⟩
  rcases hClass.shallowSizes hOwned' hIds h classes.length
      hNodup'
      (fun o => (hOrder' o).trans decide_eq_true_iff) with
    ⟨sizes, hSizes, hAtSizes⟩
  refine ⟨tags, tags', shallow, retained, sizes, hUser, hUser',
    hShallow, hSizes, ?_⟩
  rw [classesApart_iff, ← sumFor_eq_iff h ids]
  constructor
  · intro hEq i
    by_cases hLt : i < classes.length
    · have hBoth := hAtShallow i
      rw [hEq, hAtSizes, if_pos hLt] at hBoth
      have hCount : i < q.count := hLt
      rw [if_pos hCount] at hBoth
      exact (Option.some.inj hBoth).symm
    · have hNone :
          ∀ o, i ∉ ids o := fun o hMem => hLt (classIds_lt hMem)
      unfold sumFor
      apply Finset.sum_congr rfl
      intro o _
      have hStarts : i ∉ q.starts o :=
        fun hMem => hLt (q.starts_lt o i hMem)
      rw [if_neg (hNone _)]
      exact if_neg hStarts
  · intro hSums
    apply List.ext_getElem?
    intro i
    rw [hAtShallow, hAtSizes]
    change (if i < classes.length then _ else none) = _
    congr 2
    exact hSums i

/-
  `java.lang.Class`, a class and an instance of it.  Both
  class objects are instances of `java.lang.Class`.
-/
def langHeap : Heap (Fin 3) where
  roots :=
    [⟨.systemClass, .none, 0⟩, ⟨.systemClass, .none, 1⟩,
      ⟨.stackLocal, .none, 2⟩]
  references := fun _ => []
  size := fun _ => 16
  classOf := fun o => if o = 2 then 1 else 0
  roots_isRoot := by decide
  references_isHeld := by decide
  size_pos := by decide

/- The class objects that are found for either class. -/
def langFound (c : Fin 3) : List (Fin 3) :=
  [c]

/- A traversal of this heap. -/
def langReports : List (Command (Fin 3)) :=
  [.report ⟨none, .systemClass, .none, 0⟩,
    .report ⟨none, .systemClass, .none, 1⟩,
    .report ⟨none, .stackLocal, .none, 2⟩]

/- The commands of the two runs up to the last iteration. -/
def langStages : List (Command (Fin 3)) :=
  [.call, .begin [0, 1, 2], .call, .call, .call,
    .begin []] ++ langReports ++
  [.begin [], .begin [0, 1, 2], .call, .call, .call,
    .begin []] ++ langReports ++ [.begin []]

def langRun (c : Fin 3) : Option (State (Fin 3)) :=
  run lowAddresses (.initial langHeap)
    (.start langHeap
      (.getShallowAndRetainedSizeByClasses
        (taggedClasses langFound [c])) :: langStages)

def langRunShallow (c : Fin 3) : Option (State (Fin 3)) :=
  run lowAddresses (.initial langHeap)
    [.start langHeap
      (.getShallowSizeByClasses
        (taggedClasses langFound [c])), .call]

/- The sizes agree for the class of the instance. -/
theorem shallowSizes_eq_iff_lang :
    ∃ s s' next next',
      langRun 1 = some s ∧ langRunShallow 1 = some s' ∧
      execute lowAddresses s (.begin [0, 1, 2]) =
        some next ∧
      execute lowAddresses s' (.begin [2]) = some next' ∧
      ∃ tags tags' shallow retained sizes,
        s.data.user = some tags ∧
        s'.data.user = some tags' ∧
        calculateShallowAndRetainedSizes lowAddresses
            langHeap s.data.tag tags [0, 1, 2] 1 =
          some (shallow, retained) ∧
        calculateShallowSizes lowAddresses langHeap
            s'.data.tag tags' [2] 1 =
          some sizes ∧
        (shallow = sizes ↔
          ClassesApart langHeap langFound [1]) := by
  have hSome :
      (langRun 1).any (fun s =>
        decide (s.point =
          .running (.walk [] [] [])
            [.iterate .visitObjectForShallowAndRetainedSize]
            []) &&
        (execute lowAddresses s
          (.begin [0, 1, 2])).isSome) = true := by
    decide +kernel
  have hSome' :
      (langRunShallow 1).any (fun s =>
        decide (s.point =
          .running (.tagClasses [])
            [.iterate .calculateShallowSize] []) &&
        (execute lowAddresses s (.begin [2])).isSome) =
        true := by
    decide +kernel
  rcases (Option.any_eq_true _ _).mp hSome with
    ⟨s, hRun, hBoth⟩
  rcases (Option.any_eq_true _ _).mp hSome' with
    ⟨s', hRun', hBoth'⟩
  rw [Bool.and_eq_true, decide_eq_true_iff] at hBoth hBoth'
  rcases Option.isSome_iff_exists.mp hBoth.2 with
    ⟨next, hNext⟩
  rcases Option.isSome_iff_exists.mp hBoth'.2 with
    ⟨next', hNext'⟩
  exact ⟨s, s', next, next', hRun, hRun', hNext, hNext',
    shallowSizes_eq_iff lowAddresses lowAddresses langHeap
      langFound [1] [0, 1, 2] [2] [] [] s s' next next'
      (.walk [] [] []) (.tagClasses []) (by decide +kernel)
      (fun c => List.nodup_singleton c) (by decide)
      ⟨.initial langHeap, langStages, ⟨langHeap, [], rfl⟩,
        by decide, hRun⟩
      hBoth.1 hNext
      ⟨.initial langHeap, [.call], ⟨langHeap, [], rfl⟩,
        by decide, hRun'⟩
      hBoth'.1 hNext'⟩

/- For `java.lang.Class`, its own class object is missing. -/
theorem not_shallowSizes_eq :
    ∃ s s' tags tags',
      langRun 0 = some s ∧ langRunShallow 0 = some s' ∧
      s.data.user = some tags ∧
      s'.data.user = some tags' ∧
      (execute lowAddresses s
        (.begin [0, 1, 2])).isSome = true ∧
      (execute lowAddresses s'
        (.begin [0, 1])).isSome = true ∧
      calculateShallowAndRetainedSizes lowAddresses langHeap
          s.data.tag tags [0, 1, 2] 1 =
        some ([16], [16]) ∧
      calculateShallowSizes lowAddresses langHeap
          s'.data.tag tags' [0, 1] 1 =
        some [32] := by
  have hSome :
      (langRun 0).any (fun s =>
        s.data.user.any (fun tags =>
          (execute lowAddresses s
            (.begin [0, 1, 2])).isSome &&
          decide (calculateShallowAndRetainedSizes
              lowAddresses langHeap s.data.tag tags
              [0, 1, 2] 1 =
            some ([16], [16])))) = true := by
    decide +kernel
  have hSome' :
      (langRunShallow 0).any (fun s =>
        s.data.user.any (fun tags =>
          (execute lowAddresses s
            (.begin [0, 1])).isSome &&
          decide (calculateShallowSizes lowAddresses langHeap
              s.data.tag tags [0, 1] 1 =
            some [32]))) = true := by
    decide +kernel
  rcases (Option.any_eq_true _ _).mp hSome with
    ⟨s, hRun, hTags⟩
  rcases (Option.any_eq_true _ _).mp hTags with
    ⟨tags, hUser, hBoth⟩
  rcases (Option.any_eq_true _ _).mp hSome' with
    ⟨s', hRun', hTags'⟩
  rcases (Option.any_eq_true _ _).mp hTags' with
    ⟨tags', hUser', hBoth'⟩
  rw [Bool.and_eq_true, decide_eq_true_iff] at hBoth hBoth'
  exact ⟨s, s', tags, tags', hRun, hRun', hUser, hUser',
    hBoth.1, hBoth'.1, hBoth.2, hBoth'.2⟩

end SizesTags

end MemoryAgent
