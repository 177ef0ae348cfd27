import Mathlib.Algebra.BigOperators.Group.Finset.Piecewise
import MemoryAgent.Sizes.Tags.ShallowSizes
import MemoryAgent.Sizes.Tags.TracedRuns

/-
  The sums of a run count only objects that the listed
  objects, or the instances of the listed classes, reach.
  The shallow sizes are at most the retained sizes.

  Key definitions include:
    * `SizesTags.objectOrigins`
    * `SizesTags.classOrigins`

  Main results:
    * `SizesTags.estimateRetainedSize_reachable`
    * `SizesTags.sizesByClasses_reachable`
-/

------------------------------------------------------------
-- Sums
------------------------------------------------------------

namespace MemoryAgent

namespace SizesTags

open RecordStore TagMemory TagInfoArray

section Sums

variable {O : Type}
variable [Fintype O]
variable [DecidableEq O]
variable {q : Query O}
variable {m : TagAddresses}
variable {h : Heap O}
variable {tag : O → jlong}
variable {tags : TagMemory}
variable {resets : Bool}
variable {i : Nat}

omit [Fintype O] [DecidableEq O] in
theorem indices_carriedInfos
    (o : O) :
    indices (carriedInfos m tag tags o) =
      tags.indicesAt m (tag o) := by
  by_cases hZero : tag o = 0
  · rw [carriedInfos_zero hZero, indicesAt, hZero, viewAt_zero]
    rfl
  · unfold carriedInfos visitedInfos indicesAt viewAt
    rw [if_neg hZero]
    cases tags.dereference m (tag o) with
    | none => rfl
    | some t => rfl

omit [Fintype O] [DecidableEq O] in
theorem Query.Traced.carried
    (hTraced : q.Traced m h tag tags)
    {o : O}
    {info : TagInfo}
    (hMem : info ∈ carriedInfos m tag tags o) :
    q.Reaches h o info.index := by
  apply hTraced o
  rw [← indices_carriedInfos]
  exact List.mem_map_of_mem hMem

/- Objects that no start object reaches do not count. -/
theorem Query.Traced.sum_le
    (hTraced : q.Traced m h tag tags)
    (selects : BitVec 8 → Bool)
    {order : List O}
    (hNodup : order.Nodup)
    (reached : Finset O)
    (hReached : ∀ o, q.Reaches h o i → o ∈ reached) :
    (order.map (fun o =>
      sizeFor selects (h.size o)
        (carriedInfos m tag tags o) i)).sum ≤
      reached.sum h.size := by
  have hTerm (o : O) :
      sizeFor selects (h.size o)
          (carriedInfos m tag tags o) i ≤
        if o ∈ reached then h.size o else 0 := by
    unfold sizeFor
    split
    · next hSelected =>
        rw [if_pos]
        apply hReached
        apply hTraced o
        rw [← indices_carriedInfos, mem_indices_iff]
        intro hNone
        rw [hNone] at hSelected
        cases hSelected
    · split
      · exact (h.size_pos o).le
      · exact le_refl 0
  rw [← List.sum_toFinset _ hNodup]
  calc order.toFinset.sum (fun o =>
        sizeFor selects (h.size o)
          (carriedInfos m tag tags o) i)
      ≤ order.toFinset.sum (fun o =>
          if o ∈ reached then h.size o else 0) :=
        Finset.sum_le_sum (fun o _ => hTerm o)
    _ ≤ Finset.univ.sum (fun o =>
          if o ∈ reached then h.size o else 0) := by
        apply Finset.sum_le_univ_sum_of_nonneg
        intro o
        split
        · exact (h.size_pos o).le
        · exact le_refl 0
    _ = reached.sum h.size := by
        rw [Finset.sum_ite_mem, Finset.univ_inter]

omit [Fintype O] [DecidableEq O] in
/- Each start info counts for the retained size as well. -/
theorem sum_shallow_le
    (infos : O → List TagInfo)
    (h : Heap O)
    (order : List O) :
    (order.map (fun o =>
        sizeFor isStartObject (h.size o) (infos o) i)).sum ≤
      (order.map (fun o =>
        sizeFor isRetained (h.size o) (infos o) i)).sum := by
  apply List.sum_le_sum
  intro o _
  unfold sizeFor
  cases stateAt (infos o) i with
  | none => exact le_refl 0
  | some state =>
      rw [Option.any_some, Option.any_some]
      by_cases hStart : isStartObject state = true
      · have hRetained : isRetained state = true := by
          rw [isRetained, hStart, Bool.true_or]
        rw [if_pos hStart, if_pos hRetained]
      · rw [if_neg hStart]
        split
        · exact (h.size_pos o).le
        · exact le_refl 0

omit [DecidableEq O] in
theorem Owned.calculateShallowAndRetainedSizes_eq
    (hOwned : Owned m tag tags)
    (h : Heap O)
    (order : List O)
    (count : Nat) :
    calculateShallowAndRetainedSizes m h tag tags order
        count =
      some
        (order.foldl
          (fun result o =>
            addSizes isStartObject (h.size o)
              (carriedInfos m tag tags o) result)
          (List.replicate count 0),
        order.foldl
          (fun result o =>
            addSizes isRetained (h.size o)
              (carriedInfos m tag tags o) result)
          (List.replicate count 0)) := by
  rw [← foldl_pair]
  apply foldlM_some
  intro arrays o
  unfold visitObjectForShallowAndRetainedSize
  rw [hOwned.visitedInfos_eq o]
  rfl

/- The arrays of both last stages, on the same tags. -/
theorem Query.Traced.both
    (hTraced : q.Traced m h tag tags)
    (hOwned : Owned m tag tags)
    (hStarted : q.Started m resets tag tags)
    {order : List O}
    (hNodup : order.Nodup) :
    ∃ shallow retained,
      calculateRetainedSizes m h tag tags order q.count =
        some retained ∧
      calculateShallowAndRetainedSizes m h tag tags order
          q.count =
        some (shallow, retained) ∧
      ∀ i, i < q.count →
        ∃ a b, shallow[i]? = some a ∧
          retained[i]? = some b ∧ a ≤ b ∧
          ∀ reached : Finset O,
            (∀ o, q.Reaches h o i → o ∈ reached) →
              b ≤ reached.sum h.size := by
  have hIncreasing (o : O) :
      Increasing (carriedInfos m tag tags o) :=
    (hStarted.fits hOwned o).increasing
  refine ⟨_, _,
    hOwned.calculateRetainedSizes_eq h order q.count,
    hOwned.calculateShallowAndRetainedSizes_eq h order
      q.count, ?_⟩
  intro i hLt
  rw [foldl_addSizes_getElem? hIncreasing,
    foldl_addSizes_getElem? hIncreasing,
    List.getElem?_replicate, if_pos hLt]
  refine ⟨_, _, rfl, rfl, ?_, ?_⟩
  · dsimp only
    rw [zero_add, zero_add]
    exact sum_shallow_le _ h order
  · intro reached hReached
    dsimp only
    rw [zero_add]
    exact hTraced.sum_le isRetained hNodup reached hReached

end Sums

------------------------------------------------------------
-- Origins
------------------------------------------------------------

section Runs

variable {O : Type}
variable [Fintype O]
variable [DecidableEq O]
variable {q : Query O}
variable {m : TagAddresses}
variable {h : Heap O}
variable {ids : O → List Nat}
variable {listed : List (O × Nat)}
variable {objects : List O}
variable {last : Iteration}

theorem objectOrigins
    (hApart : q.Apart) :
    Origins q m h (ObjectPhase q m objects) where
  createTag := by
    intro o i todo rest tag tags b tags' hPhase hOwned hSome
    cases hPhase with
    | create hCreating =>
        exact createTagForObject_sourced hApart hOwned
          hCreating hSome
    | retag hCreating =>
        exact createTagForObject_sourced hApart hOwned
          hCreating hSome
  tagClass := by
    intro o i todo rest tag tags b tags' hPhase
    cases hPhase
  iterate := by
    intro callback o todo rest tag tags b tags' hPhase _ hSome
    cases hPhase with
    | sum hStarted =>
        rcases reads_visitObject hSome with ⟨hB, hTags⟩
        rw [hB, hTags]
        exact .keep (fun _ => rfl)

theorem classOrigins
    (hBound : ∀ c, ∀ i ∈ ids c, i < querySize)
    (hStarts : q.OfInstances h ids)
    (hReads : last.Reads m) :
    Origins q m h (ClassPhase q m ids last) where
  createTag := by
    intro o i todo rest tag tags b tags' hPhase
    cases hPhase
  tagClass := by
    intro o i todo rest tag tags b tags' hPhase hOwned hSome
    cases hPhase with
    | tagClasses hTagging =>
        exact tagClass_sourced hBound hOwned hTagging hSome
  iterate := by
    intro callback o todo rest tag tags b tags' hPhase hOwned
      hSome
    cases hPhase with
    | instances hClass _ =>
        exact tagObjectOfTaggedClass_sourced hOwned hClass
          hStarts hSome
    | retag hClass _ =>
        exact retagStartObjects_sourced hOwned hClass hStarts
          hSome
    | sum _ =>
        rcases hReads hSome with ⟨hB, hTags⟩
        rw [hB, hTags]
        exact .keep (fun _ => rfl)

end Runs

------------------------------------------------------------
-- Results
------------------------------------------------------------

/-
  In each state of a run that is not interrupted, an object
  has an info for a position only if the listed object at
  this position reaches it; and the sum of a completed run
  there is at most the size of all that it reaches.
-/
theorem estimateRetainedSize_reachable
    {O : Type}
    [Fintype O]
    [DecidableEq O]
    (m : TagAddresses)
    (h : Heap O)
    (objects : List O)
    (s : State O)
    (hCard : Fintype.card O < refCountSize)
    (hLength : objects.length ≤ 65535)
    (hRun :
      Uninterrupted m h (.estimateRetainedSize objects) s) :
    ∃ tags work rest collected,
      s.data.user = some tags ∧
      s.point = .running work rest collected ∧
      (∀ o, ∀ info ∈ carriedInfos m s.data.tag tags o,
        ∃ x, objects[info.index]? = some x ∧
          h.Reachable x o) ∧
      (rest = [.iterate .visitObject] →
        ∀ order s', execute m s (.begin order) = some s' →
          ∃ result,
            calculateRetainedSizes m h s.data.tag tags order
                objects.length =
              some result ∧
            ∀ (i : Nat) (x : O), objects[i]? = some x →
              ∃ size, result[i]? = some size ∧
                ∀ reached : Finset O,
                  (∀ o, h.Reachable x o → o ∈ reached) →
                    size ≤ reached.sum h.size) := by
  let q := Query.ofObjects objects hLength
  have hApart : q.Apart := Query.ofObjects_apart hLength
  have hPhases :
      Phases m h (.estimateRetainedSize objects)
        (ObjectPhase q m objects) :=
    objectPhases hApart (fun _ => rfl) m h
  rcases hRun.traced hPhases (objectOrigins hApart) hCard with
    ⟨tags, ⟨hHeap, ⟨hUser, hOwned, _⟩, work, rest, collected,
      hPoint, hPhase⟩, hTraced, _⟩
  refine ⟨tags, work, rest, collected, hUser, hPoint, ?_, ?_⟩
  · intro o info hMem
    rcases hTraced.carried hMem with ⟨x, hStart, hReachable⟩
    exact ⟨x, mem_indicesIn_zipIdx.mp hStart, hReachable⟩
  · intro hRest order s' hStep
    subst hRest
    have hStarted : q.Started m false s.data.tag tags := by
      cases hPhase with
      | walk hStarted => exact hStarted
    rcases order_of_begin hPoint hStep with ⟨_, hNodup, _⟩
    rcases hTraced.both hOwned hStarted hNodup with
      ⟨_, result, hResult, _, hSizes⟩
    refine ⟨result, hResult, fun i x hAt => ?_⟩
    have hLt : i < q.count :=
      (List.getElem?_eq_some_iff.mp hAt).1
    rcases hSizes i hLt with ⟨_, size, _, hSize, _, hLe⟩
    refine ⟨size, hSize, fun reached hReached => ?_⟩
    apply hLe
    rintro o ⟨y, hStart, hReachable⟩
    have hY := mem_indicesIn_zipIdx.mp hStart
    rw [hAt] at hY
    cases hY
    exact hReached o hReachable

/- The second object of the pair reaches only itself. -/
theorem reachable_pair
    {o : Bool}
    (hReachable : pairHeap.Reachable true o) :
    o = true := by
  rcases Relation.ReflTransGen.cases_head hReachable with
    hEq | ⟨_, ⟨_, hMem, _⟩, _⟩
  · exact hEq.symm
  · exact absurd hMem List.not_mem_nil

theorem estimateRetainedSize_reachable_pair :
    ∃ s, run lowAddresses (.initial pairHeap)
          (.start pairHeap (.estimateRetainedSize [true]) ::
            pairStages.tail) =
        some s ∧
      ∃ tags work rest collected,
        s.data.user = some tags ∧
        s.point = .running work rest collected ∧
        rest = [.iterate .visitObject] ∧
        ∀ order s',
          execute lowAddresses s (.begin order) = some s' →
            ∃ result size,
              calculateRetainedSizes lowAddresses pairHeap
                  s.data.tag tags order 1 =
                some result ∧
              result[0]? = some size ∧ size ≤ 16 := by
  have hSome :
      (run lowAddresses (.initial pairHeap)
        (.start pairHeap (.estimateRetainedSize [true]) ::
          pairStages.tail)).any beforeLastStage = true := by
    decide +kernel
  rcases (Option.any_eq_true _ _).mp hSome with
    ⟨s, hRun, hRest⟩
  refine ⟨s, hRun, ?_⟩
  rcases estimateRetainedSize_reachable lowAddresses pairHeap
      [true] s (by decide +kernel) (by decide)
      ⟨.initial pairHeap, pairStages.tail,
        ⟨pairHeap, [], rfl⟩, by decide, hRun⟩ with
    ⟨tags, work, rest, collected, hUser, hPoint, _, hLast⟩
  rw [beforeLastStage, hPoint] at hRest
  have hEq := of_decide_eq_true hRest
  refine ⟨tags, work, rest, collected, hUser, hPoint, hEq,
    ?_⟩
  intro order s' hStep
  rcases hLast hEq order s' hStep with
    ⟨result, hResult, hSizes⟩
  rcases hSizes 0 true rfl with ⟨size, hSize, hLe⟩
  refine ⟨result, size, hResult, hSize, ?_⟩
  apply hLe {true}
  intro o hReachable
  rw [Finset.mem_singleton]
  exact reachable_pair hReachable

/-
  The same for the actions on classes, where the objects
  are the instances of a class.  The array of shallow sizes
  comes with the same retained sizes, and is below them.
-/
theorem sizesByClasses_reachable
    {O : Type}
    [Fintype O]
    [DecidableEq O]
    (m : TagAddresses)
    (h : Heap O)
    (found : O → List O)
    (classes : List O)
    (action : Action O)
    (s : State O)
    (hCard : Fintype.card O < refCountSize)
    (hFound : ∀ c, (found c).Nodup)
    (hLength : classes.length ≤ 65535)
    (hAction :
      action = .getRetainedSizeByClasses
          (taggedClasses found classes) ∨
        action = .getShallowAndRetainedSizeByClasses
          (taggedClasses found classes))
    (hRun : Uninterrupted m h action s) :
    ∃ tags work rest collected,
      s.data.user = some tags ∧
      s.point = .running work rest collected ∧
      (∀ o, ∀ info ∈ carriedInfos m s.data.tag tags o,
        ∃ c x, classes[info.index]? = some c ∧
          h.classOf x ∈ found c ∧ h.Reachable x o) ∧
      ∀ last, rest = [.iterate last] →
        ∀ order s', execute m s (.begin order) = some s' →
          ∃ shallow retained,
            calculateRetainedSizes m h s.data.tag tags order
                classes.length =
              some retained ∧
            calculateShallowAndRetainedSizes m h s.data.tag
                tags order classes.length =
              some (shallow, retained) ∧
            ∀ (i : Nat) (c : O), classes[i]? = some c →
              ∃ a b, shallow[i]? = some a ∧
                retained[i]? = some b ∧ a ≤ b ∧
                ∀ reached : Finset O,
                  (∀ x o, h.classOf x ∈ found c →
                    h.Reachable x o → o ∈ reached) →
                  b ≤ reached.sum h.size := by
  let ids := classIds found classes
  let q := Query.ofClasses h found classes hFound hLength
  have hBound : ∀ c, ∀ i ∈ ids c, i < querySize :=
    fun _ _ hMem =>
      (classIds_lt hMem).trans (length_lt_querySize hLength)
  have hPhase :
      ∃ last, ∃ tags,
        InPhase m h (ClassPhase q m ids last) s tags ∧
          TracedAt q m h s tags := by
    rcases hAction with hAction | hAction
    · rw [hAction] at hRun
      exact ⟨.visitObject, hRun.traced
        (classPhases rfl rfl (fun _ => rfl) hBound
          (fun _ => rfl) reads_visitObject)
        (classOrigins hBound (fun _ => rfl)
          reads_visitObject) hCard⟩
    · rw [hAction] at hRun
      exact ⟨.visitObjectForShallowAndRetainedSize, hRun.traced
        (classPhases rfl rfl (fun _ => rfl) hBound
          (fun _ => rfl)
          reads_visitObjectForShallowAndRetainedSize)
        (classOrigins hBound (fun _ => rfl)
          reads_visitObjectForShallowAndRetainedSize) hCard⟩
  have hStartsAt (x : O) (i : Nat) (hMem : i ∈ q.starts x) :
      ∃ c, classes[i]? = some c ∧ h.classOf x ∈ found c := by
    change i ∈ (if ids x = [] then ids (h.classOf x) else [])
      at hMem
    split at hMem
    · exact mem_classIds_iff.mp hMem
    · exact absurd hMem List.not_mem_nil
  rcases hPhase with
    ⟨last, tags, ⟨hHeap, ⟨hUser, hOwned, _⟩, work, rest,
      collected, hPoint, hPhase⟩, hTraced, _⟩
  refine ⟨tags, work, rest, collected, hUser, hPoint, ?_, ?_⟩
  · intro o info hMem
    rcases hTraced.carried hMem with ⟨x, hStart, hReachable⟩
    rcases hStartsAt x _ hStart with ⟨c, hC, hFoundX⟩
    exact ⟨c, x, hC, hFoundX, hReachable⟩
  · intro last' hRest order s' hStep
    subst hRest
    have hStarted : q.Started m false s.data.tag tags := by
      cases hPhase with
      | walk hStarted => exact hStarted
    rcases order_of_begin hPoint hStep with ⟨_, hNodup, _⟩
    rcases hTraced.both hOwned hStarted hNodup with
      ⟨shallow, retained, hRetained, hBoth, hSizes⟩
    refine ⟨shallow, retained, hRetained, hBoth, ?_⟩
    intro i c hAt
    have hLt : i < q.count :=
      (List.getElem?_eq_some_iff.mp hAt).1
    rcases hSizes i hLt with ⟨a, b, hA, hB, hAB, hLe⟩
    refine ⟨a, b, hA, hB, hAB, fun reached hReached => ?_⟩
    apply hLe
    rintro o ⟨x, hStart, hReachable⟩
    rcases hStartsAt x i hStart with ⟨d, hD, hFoundX⟩
    rw [hAt] at hD
    cases hD
    exact hReached x o hFoundX hReachable

def beforeLastOfBoth (s : State (Fin 3)) : Bool :=
  match s.point with
  | .running _ rest _ =>
      decide (rest =
        [.iterate .visitObjectForShallowAndRetainedSize])
  | _ => false

theorem sizesByClasses_reachable_lang :
    ∃ s next, langRun 1 = some s ∧
      execute lowAddresses s (.begin [0, 1, 2]) =
        some next ∧
      ∃ tags shallow retained a b,
        s.data.user = some tags ∧
        calculateShallowAndRetainedSizes lowAddresses
            langHeap s.data.tag tags [0, 1, 2] 1 =
          some (shallow, retained) ∧
        shallow[0]? = some a ∧ retained[0]? = some b ∧
        a ≤ b ∧ b ≤ 16 := by
  have hSome :
      (langRun 1).any (fun s =>
        (execute lowAddresses s
          (.begin [0, 1, 2])).isSome) = true := by
    decide +kernel
  have hLast : (langRun 1).any beforeLastOfBoth = true := by
    decide +kernel
  rcases (Option.any_eq_true _ _).mp hSome with
    ⟨s, hRun, hNext⟩
  rw [hRun, Option.any_some] at hLast
  rcases Option.isSome_iff_exists.mp hNext with ⟨next, hStep⟩
  refine ⟨s, next, hRun, hStep, ?_⟩
  rcases sizesByClasses_reachable lowAddresses langHeap
      langFound [1] _ s (by decide +kernel)
      (fun c => List.nodup_singleton c) (by decide)
      (Or.inr rfl)
      ⟨.initial langHeap, langStages, ⟨langHeap, [], rfl⟩,
        by decide, hRun⟩ with
    ⟨tags, work, rest, collected, hUser, hPoint, _, hSums⟩
  rw [beforeLastOfBoth, hPoint] at hLast
  rcases hSums _ (of_decide_eq_true hLast) [0, 1, 2] next hStep
    with ⟨shallow, retained, _, hBoth, hSizes⟩
  rcases hSizes 0 1 rfl with ⟨a, b, hA, hB, hAB, hLe⟩
  refine ⟨tags, shallow, retained, a, b, hUser, hBoth, hA, hB,
    hAB, ?_⟩
  apply hLe {2}
  intro x o hClass hReachable
  have hOnly :
      ∀ x, langHeap.classOf x ∈ langFound 1 → x = 2 := by
    decide
  rw [Finset.mem_singleton]
  rcases Relation.ReflTransGen.cases_head hReachable with
    hEq | ⟨_, ⟨_, hMem, _⟩, _⟩
  · rw [← hEq]
    exact hOnly x hClass
  · exact absurd hMem List.not_mem_nil

end SizesTags

end MemoryAgent
