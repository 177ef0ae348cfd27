import MemoryAgent.Roots.TruncatedPaths

/-
  Which tags the paths reach before the limits: every path
  that is begun adds its root, and the tags below the root as
  long as fewer tags than the limit come before them.

  Key definitions include:
    * `Roots.Above`
    * `Roots.EmitsAt`
    * `Roots.Begins`
    * `Roots.Emits`

  Main results:
    * `Roots.walkPath_stopped`
    * `Roots.Reached.next`
    * `Roots.createPaths_emits`
-/

------------------------------------------------------------
-- Tags of a Chain
------------------------------------------------------------

namespace MemoryAgent

namespace Roots

open ClosestGcRoots BreadthFirst

/- `x` lies on the chain of `r`, before `z`. -/
def Above
    (prevNode : jlong → Option jlong)
    (r z x : jlong) : Prop :=
  OnChain prevNode r x ∧ x ≠ z ∧ OnChain prevNode x z

section Chains

variable {backRefs : jlong → List ReferenceInfo}
variable {start a b c r x : jlong}
variable {prevNode : jlong → Option jlong}
variable {depth : jlong → Nat}

theorem OnChain.depth_lt
    (hTree : PrevTree backRefs start prevNode depth)
    (hChain : OnChain prevNode a b) :
    a = b ∨ depth b < depth a := by
  induction hChain with
  | refl => exact Or.inl rfl
  | @tail b c _ hPrev ih =>
      by_cases hEq : b = start
      · rw [hEq, hTree.start_prev] at hPrev
        rw [← Option.some.inj hPrev, ← hEq]
        exact ih
      · have hDepth := (hTree.step b c hEq hPrev).2
        rcases ih with hSame | hLess
        · rw [hSame]
          exact Or.inr (by omega)
        · exact Or.inr (by omega)

/- The chain of the start is the start. -/
theorem OnChain.eq_start
    (hTree : PrevTree backRefs start prevNode depth)
    (hChain : OnChain prevNode start b) :
    b = start := by
  induction hChain with
  | refl => rfl
  | tail _ hPrev ih =>
      rw [ih, hTree.start_prev] at hPrev
      exact (Option.some.inj hPrev).symm

/- Of two tags on a chain, one is on the chain of the other. -/
theorem OnChain.total
    (hA : OnChain prevNode r a)
    (hB : OnChain prevNode r b) :
    OnChain prevNode a b ∨ OnChain prevNode b a :=
  Relation.ReflTransGen.total_of_right_unique
    (fun _ _ _ hFirst hSecond =>
      Option.some.inj (hFirst.symm.trans hSecond))
    hA hB

/- Below `b`, the chain goes on with its predecessor. -/
theorem OnChain.below
    (hChain : OnChain prevNode b a)
    (hNe : b ≠ a)
    (hPrev : prevNode b = some c) :
    OnChain prevNode c a := by
  rcases Relation.ReflTransGen.cases_head hChain with
    hEq | ⟨c', hStep, hRest⟩
  · exact absurd hEq hNe
  · have hSame := Option.some.inj (hPrev.symm.trans hStep)
    rw [hSame]
    exact hRest

/- What comes before the predecessor of `b` on a chain. -/
theorem above_prev_iff
    (hTree : PrevTree backRefs start prevNode depth)
    (hNe : b ≠ start)
    (hPrev : prevNode b = some c)
    (hChain : OnChain prevNode r b) :
    Above prevNode r c x ↔
      OnChain prevNode r x ∧ OnChain prevNode x b := by
  have hDepth := (hTree.step b c hNe hPrev).2
  constructor
  · rintro ⟨hOn, hNeC, hBelow⟩
    refine ⟨hOn, ?_⟩
    rcases hOn.total hChain with hUp | hDown
    · exact hUp
    · by_cases hEq : b = x
      · rw [hEq]
        exact Relation.ReflTransGen.refl
      · rcases (hDown.below hEq hPrev).depth_lt hTree with
          hSame | hLess
        · exact absurd hSame.symm hNeC
        · rcases OnChain.depth_lt hTree hBelow with
            hSame | hMore
          · exact absurd hSame hNeC
          · omega
  · rintro ⟨hOn, hUp⟩
    refine ⟨hOn, ?_, hUp.tail hPrev⟩
    intro hEq
    rw [hEq] at hUp
    rcases OnChain.depth_lt hTree hUp with hSame | hLess
    · rw [hSame] at hDepth
      omega
    · omega

end Chains

------------------------------------------------------------
-- One Path
------------------------------------------------------------

/- The keys of the map are the tags. -/
def Keyed (s : Paths) : Prop :=
  ∀ t, t ∈ s.tags ↔ s.tagToInfos t ≠ none

/-
  The path of the root `r` goes down to `y`, through tags that
  are not in `base`.
-/
structure PathDown
    (prevNode : jlong → Option jlong)
    (limit : Nat)
    (base : List jlong)
    (r y : jlong)
    (path : List jlong) : Prop where
  onChain : OnChain prevNode r y
  mem_iff :
    ∀ z, z ∈ path ↔
      OnChain prevNode r z ∧ OnChain prevNode z y
  nodup : path.Nodup
  fresh : ∀ z ∈ path, z ∉ base
  room :
    path.length = 1 ∨ (base ++ path).length ≤ limit
  few :
    ∀ z ∈ path, z = r ∨
      ∃ before : List jlong,
        (∀ x, x ∈ before ↔
          x ∈ base ∨ Above prevNode r z x) ∧
        before.length < limit

/-
  The path stops at `y`: at the limit, at the start, or where
  the tags in `base` go on.
-/
inductive Stopped
    (prevNode : jlong → Option jlong)
    (start : jlong)
    (limit cnt : Nat)
    (base : List jlong)
    (y : jlong)
    (path : List jlong) : List jlong → Prop
  | full :
      limit ≤ (base ++ path).length →
        Stopped prevNode start limit cnt base y path
          (base ++ path ++
            if cnt = 1 then [start] else [])
  | whole :
      (base ++ path).length < limit →
        (y = start ∨
          ∃ p, prevNode y = some p ∧ p ∈ base) →
          Stopped prevNode start limit cnt base y path
            (base ++ path)

section Path

variable {backRefs : jlong → List ReferenceInfo}
variable {start r y p : jlong}
variable {prevNode : jlong → Option jlong}
variable {depth : jlong → Nat}
variable {limit cnt : Nat}
variable {base path tags : List jlong}
variable {s : Paths}

/- A new tag. -/
theorem Keyed.append
    (hKeyed : Keyed s)
    (tag : jlong)
    (infos : List ReferenceInfo)
    (n : Nat) :
    Keyed
      ⟨s.nodesToPathNum ++ [(tag, n)],
        appendInfos tag infos s.tagToInfos⟩ := by
  intro t
  have hOld := hKeyed t
  simp only [Paths.tags] at hOld
  simp only [Paths.tags, List.map_append, List.mem_append,
    hOld, List.map_cons, List.map_nil, List.mem_singleton]
  by_cases hEq : t = tag
  · rw [hEq, appendInfos_self]
    simp
  · rw [appendInfos_of_ne infos s.tagToInfos hEq]
    simp [hEq]

/- More references for a tag. -/
theorem Keyed.append_old
    (hKeyed : Keyed s)
    {tag : jlong}
    (hMem : tag ∈ s.tags)
    (infos : List ReferenceInfo) :
    Keyed
      ⟨s.nodesToPathNum,
        appendInfos tag infos s.tagToInfos⟩ := by
  intro t
  change t ∈ s.tags ↔
    appendInfos tag infos s.tagToInfos t ≠ none
  by_cases hEq : t = tag
  · rw [hEq, appendInfos_self]
    exact ⟨fun _ => Option.some_ne_none _, fun _ => hMem⟩
  · rw [appendInfos_of_ne infos s.tagToInfos hEq]
    exact hKeyed t

theorem PathDown.refl
    (hTree : PrevTree backRefs start prevNode depth)
    (limit : Nat)
    (hNew : r ∉ base) :
    PathDown prevNode limit base r r [r] := by
  refine ⟨Relation.ReflTransGen.refl, ?_,
    List.nodup_singleton r, ?_, Or.inl rfl, ?_⟩
  · intro z
    rw [List.mem_singleton]
    constructor
    · rintro rfl
      exact ⟨Relation.ReflTransGen.refl,
        Relation.ReflTransGen.refl⟩
    · rintro ⟨hDown, hUp⟩
      rcases OnChain.depth_lt hTree hDown with hEq | hLess
      · exact hEq.symm
      · rcases OnChain.depth_lt hTree hUp with hEq | hMore
        · exact hEq
        · omega
  · intro z hMem
    rw [List.mem_singleton.mp hMem]
    exact hNew
  · intro z hMem
    exact Or.inl (List.mem_singleton.mp hMem)

theorem PathDown.mem_last
    (hPath : PathDown prevNode limit base r y path) :
    y ∈ path :=
  (hPath.mem_iff y).mpr
    ⟨hPath.onChain, Relation.ReflTransGen.refl⟩

theorem PathDown.mem_head
    (hPath : PathDown prevNode limit base r y path) :
    r ∈ path :=
  (hPath.mem_iff r).mpr
    ⟨Relation.ReflTransGen.refl, hPath.onChain⟩

theorem PathDown.nodup_append
    (hPath : PathDown prevNode limit base r y path)
    (hNodup : base.Nodup) :
    (base ++ path).Nodup := by
  rw [List.nodup_append]
  refine ⟨hNodup, hPath.nodup, ?_⟩
  intro x hX x' hX' hSame
  rw [← hSame] at hX'
  exact hPath.fresh x hX' hX

/- One step further, to a new tag. -/
theorem PathDown.snoc
    (hTree : PrevTree backRefs start prevNode depth)
    (hPath : PathDown prevNode limit base r y path)
    (hBelow : (base ++ path).length < limit)
    (hNe : y ≠ start)
    (hPrev : prevNode y = some p)
    (hNew : p ∉ base ++ path) :
    PathDown prevNode limit base r p (path ++ [p]) := by
  rw [List.mem_append, not_or] at hNew
  have hAbove :
      ∀ x, Above prevNode r p x ↔ x ∈ path := by
    intro x
    rw [above_prev_iff hTree hNe hPrev hPath.onChain,
      hPath.mem_iff]
  refine ⟨hPath.onChain.tail hPrev, ?_, ?_, ?_, ?_, ?_⟩
  · intro z
    rw [List.mem_append, List.mem_singleton, ← hAbove z]
    constructor
    · rintro (⟨hDown, _, hUp⟩ | rfl)
      · exact ⟨hDown, hUp⟩
      · exact ⟨hPath.onChain.tail hPrev,
          Relation.ReflTransGen.refl⟩
    · rintro ⟨hDown, hUp⟩
      by_cases hEq : z = p
      · exact Or.inr hEq
      · exact Or.inl ⟨hDown, hEq, hUp⟩
  · rw [List.nodup_append]
    refine ⟨hPath.nodup, List.nodup_singleton p, ?_⟩
    intro z hMem z' hMem' hEq
    rw [List.mem_singleton.mp hMem'] at hEq
    rw [hEq] at hMem
    exact hNew.2 hMem
  · intro z hMem
    rcases List.mem_append.mp hMem with hOld | hLast
    · exact hPath.fresh z hOld
    · rw [List.mem_singleton.mp hLast]
      exact hNew.1
  · rw [← List.append_assoc]
    refine Or.inr ?_
    rw [@List.length_append _ (base ++ path), List.length_singleton]
    exact hBelow
  · intro z hMem
    rcases List.mem_append.mp hMem with hOld | hLast
    · exact hPath.few z hOld
    · rw [List.mem_singleton.mp hLast]
      refine Or.inr ⟨base ++ path, ?_, hBelow⟩
      intro x
      rw [List.mem_append, hAbove x]

/- While the path of `r` is walked. -/
def Walks
    (prevNode : jlong → Option jlong)
    (limit : Nat)
    (base : List jlong)
    (r y : jlong)
    (t : Paths) : Prop :=
  Keyed t ∧
    ∃ path, PathDown prevNode limit base r y path ∧
      t.tags = base ++ path

/- The path goes on to a tag that is not in the map. -/
theorem Walks.step
    {n : Nat}
    {t : Paths}
    (hTree : PrevTree backRefs start prevNode depth)
    (hWalks : Walks prevNode limit base r y t)
    (hBelow : t.nodesToPathNum.length < limit)
    (hNe : y ≠ start)
    (hPrev : prevNode y = some p)
    (hNone : t.tagToInfos p = none)
    (infos : List ReferenceInfo) :
    Walks prevNode limit base r p
      ⟨t.nodesToPathNum ++ [(p, n)],
        appendInfos p infos t.tagToInfos⟩ := by
  rcases hWalks with ⟨hKeys, path, hPath, hTags⟩
  rw [← t.length_tags, hTags] at hBelow
  have hNotMem : p ∉ base ++ path := by
    rw [← hTags]
    exact fun hMem => (hKeys p).mp hMem hNone
  refine ⟨hKeys.append p infos n, path ++ [p],
    hPath.snoc hTree hBelow hNe hPrev hNotMem, ?_⟩
  rw [← List.append_assoc, ← hTags]
  simp [Paths.tags]

/- Where the walk of a path ends, the path stops. -/
theorem Walks.stopped
    {t : Paths}
    (hTree : PrevTree backRefs start prevNode depth)
    (hBase : cnt = 1 ∨ start ∈ base)
    (hWalks : Walks prevNode limit base r y t)
    (hEnded :
      Ended backRefs prevNode start depth limit cnt y t s) :
    Keyed s ∧
      ∃ path,
        PathDown prevNode limit base r y path ∧
          Stopped prevNode start limit cnt base y path
            s.tags := by
  rcases hWalks with ⟨hKeys, path, hPath, hTags⟩
  cases hEnded with
  | limit hFull =>
      rw [← t.length_tags, hTags] at hFull
      refine ⟨?_, path, hPath, ?_⟩
      · by_cases hCnt : cnt = 1
        · rw [if_pos hCnt]
          exact hKeys.append start _ 1
        · rw [if_neg hCnt]
          apply hKeys.append_old
          rw [hTags]
          exact List.mem_append_left path
            (hBase.resolve_left hCnt)
      · have hMap :
            List.map Prod.fst
                (if cnt = 1 then
                  t.nodesToPathNum ++ [(start, 1)]
                else t.nodesToPathNum) =
              base ++ path ++
                if cnt = 1 then [start] else [] := by
          rw [← hTags]
          split_ifs
          · rw [List.map_append]
            rfl
          · exact (List.append_nil _).symm
        change Stopped prevNode start limit cnt base y path
          (List.map Prod.fst _)
        rw [hMap]
        exact Stopped.full hFull
  | start hBelow hEq =>
      rw [← s.length_tags, hTags] at hBelow
      refine ⟨hKeys, path, hPath, ?_⟩
      rw [hTags]
      exact Stopped.whole hBelow (Or.inl hEq)
  | @join p info hBelow hNe hPrev _ _ hKnown =>
      rw [← t.length_tags, hTags] at hBelow
      have hMem : p ∈ t.tags := (hKeys p).mpr hKnown
      refine ⟨hKeys.append_old hMem [info], path, hPath, ?_⟩
      change Stopped prevNode start limit cnt base y path
        t.tags
      rw [hTags] at hMem ⊢
      refine Stopped.whole hBelow (Or.inr ⟨p, hPrev, ?_⟩)
      rcases List.mem_append.mp hMem with hOld | hPathMem
      · exact hOld
      · have hDepth := (hTree.step y p hNe hPrev).2
        rcases OnChain.depth_lt hTree
            ((hPath.mem_iff p).mp hPathMem).2 with
          hSame | hLess
        · rw [hSame] at hDepth
          omega
        · omega

/- What the inner loop adds for the root `r`. -/
theorem walkPath_stopped
    (hTree : PrevTree backRefs start prevNode depth)
    (hZero : depth start = 0)
    (limit n : Nat)
    (hKeyed : Keyed s)
    (hBase : n = 0 ∨ start ∈ s.tags)
    (hNew : r ∉ s.tags)
    (hPrev : prevNode r ≠ none) :
    ∃ s',
      (∀ fuel, depth r < fuel →
        walkPath backRefs prevNode start limit (n + 1) fuel r
            ⟨s.nodesToPathNum ++ [(r, n)],
              insertRootInfos backRefs r s.tagToInfos⟩ =
          some s') ∧
      Keyed s' ∧
      ∃ y path,
        PathDown prevNode limit s.tags r y path ∧
          Stopped prevNode start limit (n + 1) s.tags y path
            s'.tags := by
  have hFirst :
      Walks prevNode limit s.tags r r
        ⟨s.nodesToPathNum ++ [(r, n)],
          insertRootInfos backRefs r s.tagToInfos⟩ := by
    refine ⟨hKeyed.append r _ n, [r],
      PathDown.refl hTree limit hNew, ?_⟩
    simp [Paths.tags]
  have hBase' : n + 1 = 1 ∨ start ∈ s.tags :=
    hBase.imp_left (fun hEq => by rw [hEq])
  rcases walkPath_ended hTree hZero limit (n + 1)
      (Walks prevNode limit s.tags r)
      (fun y t p info hWalks hBelow hNe hPrevY _ _ hNone =>
        hWalks.step hTree hBelow hNe hPrevY hNone [info])
      hPrev hFirst with
    ⟨s', hWalk, y, t, _, hWalks, hEnded⟩
  rcases hWalks.stopped hTree hBase' hEnded with
    ⟨hKeyed', path, hPath, hStopped⟩
  exact ⟨s', hWalk, hKeyed', y, path, hPath, hStopped⟩

end Path

------------------------------------------------------------
-- Several Paths
------------------------------------------------------------

/-
  `w` is the root at `i`, or it lies below this root, and
  fewer tags than the limit come before it: those on the
  chains of earlier roots, and those above it on its own.
-/
def EmitsAt
    (prevNode : jlong → Option jlong)
    (roots : List jlong)
    (limit i : Nat)
    (w : jlong) : Prop :=
  ∃ r, roots[i]? = some r ∧ OnChain prevNode r w ∧
    (w = r ∨
      ∃ before : Finset jlong,
        (∀ x, x ∈ before ↔
          (∃ q ∈ roots.take i, OnChain prevNode q x) ∨
            Above prevNode r w x) ∧
        before.card < limit)

/- No path of the roots `done` was cut off. -/
structure Uncut
    (prevNode : jlong → Option jlong)
    (limit : Nat)
    (done tags : List jlong) : Prop where
  nodup : tags.Nodup
  closed :
    ∀ q ∈ done, ∀ t, OnChain prevNode q t → t ∈ tags
  short : done = [] ∨ tags.length < limit

/- One was, and of each later one the root was added. -/
structure CutOff
    (prevNode : jlong → Option jlong)
    (limit : Nat)
    (done tags : List jlong) : Prop where
  begun : done ≠ []
  full : limit ≤ tags.length
  many :
    ∃ shown : List jlong, shown.Nodup ∧
      limit ≤ shown.length ∧
      ∀ t ∈ shown, ∃ q ∈ done, OnChain prevNode q t
  zero : limit = 0 → tags.length = done.length + 1
  pos : 0 < limit → tags.length ≤ limit + done.length

/- The paths of the roots `done` have been walked. -/
structure Reached
    (prevNode : jlong → Option jlong)
    (start : jlong)
    (limit : Nat)
    (roots done : List jlong)
    (s : Paths) : Prop where
  keyed : Keyed s
  base : done = [] ∨ start ∈ s.tags
  onChain :
    ∀ t ∈ s.tags, ∃ q ∈ done, OnChain prevNode q t
  emitted :
    ∀ t, t ≠ start →
      (t ∈ s.tags ↔
        ∃ i < done.length, EmitsAt prevNode roots limit i t)
  counted :
    Uncut prevNode limit done s.tags ∨
      CutOff prevNode limit done s.tags

section Several

variable {backRefs : jlong → List ReferenceInfo}
variable {start r t y : jlong}
variable {prevNode : jlong → Option jlong}
variable {depth : jlong → Nat}
variable {limit : Nat}
variable {base done path rest roots tags : List jlong}
variable {s s' : Paths}

theorem eq_nil_of_onChain
    (hBase : ∀ t ∈ base, ∃ q ∈ done, OnChain prevNode q t)
    (hNil : done = []) :
    base = [] := by
  apply List.eq_nil_iff_forall_not_mem.mpr
  intro t hMem
  rcases hBase t hMem with ⟨q, hQ, _⟩
  rw [hNil] at hQ
  exact List.not_mem_nil hQ

theorem Stopped.mem_iff
    {cnt : Nat}
    (hStopped :
      Stopped prevNode start limit cnt base y path tags)
    (hNe : t ≠ start) :
    t ∈ tags ↔ t ∈ base ∨ t ∈ path := by
  cases hStopped with
  | full _ =>
      rw [List.mem_append, List.mem_append]
      split_ifs
      · simp [hNe]
      · simp
  | whole _ _ => exact List.mem_append

/- A path that was not cut off has the whole chain. -/
theorem Uncut.mem_of_onChain
    (hTree : PrevTree backRefs start prevNode depth)
    (hUncut : Uncut prevNode limit done base)
    (hBase : ∀ t ∈ base, ∃ q ∈ done, OnChain prevNode q t)
    (hPath : PathDown prevNode limit base r y path)
    (hEnd :
      y = start ∨ ∃ p, prevNode y = some p ∧ p ∈ base)
    (hChain : OnChain prevNode r t) :
    t ∈ base ∨ t ∈ path := by
  rcases hChain.total hPath.onChain with hUp | hDown
  · exact Or.inr ((hPath.mem_iff t).mpr ⟨hChain, hUp⟩)
  · by_cases hEq : y = t
    · rw [← hEq]
      exact Or.inr hPath.mem_last
    · rcases hEnd with hStart | ⟨p, hPrev, hMem⟩
      · rw [hStart] at hDown hEq
        exact absurd (hDown.eq_start hTree).symm hEq
      · rcases hBase p hMem with ⟨q, hQ, hOn⟩
        exact Or.inl (hUncut.closed q hQ t
          (hOn.trans (hDown.below hEq hPrev)))

/- Of a path that begins at the limit, the root is added. -/
theorem PathDown.eq_singleton
    (hPath : PathDown prevNode limit base r y path)
    (hFull : limit ≤ base.length) :
    path = [r] := by
  have hOne : path.length = 1 := by
    rcases hPath.room with hOne | hLe
    · exact hOne
    · have hPos := List.length_pos_of_mem hPath.mem_head
      rw [List.length_append] at hLe
      omega
  rcases List.length_eq_one_iff.mp hOne with ⟨z, hZ⟩
  have hMem := hPath.mem_head
  rw [hZ] at hMem ⊢
  rw [List.mem_singleton.mp hMem]

/- The tags of the path are emitted for its root. -/
theorem PathDown.emitsAt
    (hRoots : roots = done ++ r :: rest)
    (hBase : ∀ t ∈ base, ∃ q ∈ done, OnChain prevNode q t)
    (hCounted :
      Uncut prevNode limit done base ∨
        CutOff prevNode limit done base)
    (hPath : PathDown prevNode limit base r y path)
    (hMem : t ∈ path) :
    EmitsAt prevNode roots limit done.length t := by
  refine ⟨r, by simp [hRoots], ((hPath.mem_iff t).mp hMem).1,
    ?_⟩
  rcases hCounted with hUncut | hCut
  · refine (hPath.few t hMem).imp_right ?_
    rintro ⟨before, hBefore, hFew⟩
    refine ⟨before.toFinset, ?_,
      (List.toFinset_card_le before).trans_lt hFew⟩
    intro x
    rw [List.mem_toFinset, hBefore x, hRoots, List.take_left]
    refine or_congr_left ⟨hBase x, ?_⟩
    rintro ⟨q, hQ, hOn⟩
    exact hUncut.closed q hQ x hOn
  · rw [hPath.eq_singleton hCut.full] at hMem
    exact Or.inl (List.mem_singleton.mp hMem)

/- What is emitted for the root is on its path. -/
theorem PathDown.mem_of_emitsAt
    {cnt : Nat}
    (hTree : PrevTree backRefs start prevNode depth)
    (hRoots : roots = done ++ r :: rest)
    (hBase : ∀ t ∈ base, ∃ q ∈ done, OnChain prevNode q t)
    (hCounted :
      Uncut prevNode limit done base ∨
        CutOff prevNode limit done base)
    (hPath : PathDown prevNode limit base r y path)
    (hStopped :
      Stopped prevNode start limit cnt base y path tags)
    (hEmits : EmitsAt prevNode roots limit done.length t) :
    t ∈ base ∨ t ∈ path := by
  rcases hEmits with
    ⟨r', hGet, hChain, hEq | ⟨before, hBefore, hFew⟩⟩
  · rw [hRoots] at hGet
    have hSame : r = r' := by simpa using hGet
    rw [hEq, ← hSame]
    exact Or.inr hPath.mem_head
  · rw [hRoots] at hGet
    have hSame : r = r' := by simpa using hGet
    subst hSame
    rw [hRoots, List.take_left] at hBefore
    rcases hCounted with hUncut | hCut
    · cases hStopped with
      | whole _ hEnd =>
          exact hUncut.mem_of_onChain hTree hBase hPath hEnd
            hChain
      | full hFull =>
          by_contra hNot
          rcases not_or.mp hNot with ⟨_, hNotPath⟩
          have hBelow : OnChain prevNode y t := by
            rcases hChain.total hPath.onChain with
              hUp | hDown
            · exact absurd
                ((hPath.mem_iff t).mpr ⟨hChain, hUp⟩)
                hNotPath
            · exact hDown
          have hSubset : ∀ x ∈ base ++ path, x ∈ before := by
            intro x hX
            rw [hBefore x]
            refine (List.mem_append.mp hX).imp (hBase x) ?_
            intro hOnPath
            rcases (hPath.mem_iff x).mp hOnPath with
              ⟨hOn, hUp⟩
            refine ⟨hOn, ?_, hUp.trans hBelow⟩
            intro hEq
            rw [hEq] at hOnPath
            exact hNotPath hOnPath
          have hLe :=
            length_le_card_of_mem
              (hPath.nodup_append hUncut.nodup) hSubset
          omega
    · rcases hCut.many with ⟨shown, hNodup, hMany, hOn⟩
      have hLe :=
        length_le_card_of_mem hNodup (fun x hX =>
          (hBefore x).mpr (Or.inl (hOn x hX)))
      omega

theorem PathDown.onChain_append
    (hBase : ∀ t ∈ base, ∃ q ∈ done, OnChain prevNode q t)
    (hPath : PathDown prevNode limit base r y path) :
    ∀ t ∈ base ++ path,
      ∃ q ∈ done ++ [r], OnChain prevNode q t := by
  intro t hMem
  rcases List.mem_append.mp hMem with hOld | hNew
  · rcases hBase t hOld with ⟨q, hQ, hChain⟩
    exact ⟨q, List.mem_append_left _ hQ, hChain⟩
  · exact ⟨r, by simp, ((hPath.mem_iff t).mp hNew).1⟩

/- Before the first cut, a path ends at the limit. -/
theorem PathDown.length_le
    (hBase : ∀ t ∈ base, ∃ q ∈ done, OnChain prevNode q t)
    (hUncut : Uncut prevNode limit done base)
    (hPath : PathDown prevNode limit base r y path) :
    (base ++ path).length ≤ max limit 1 := by
  rcases hPath.room with hOne | hLe
  · rw [List.length_append, hOne]
    rcases hUncut.short with hNil | hShort
    · rw [eq_nil_of_onChain hBase hNil, List.length_nil]
      omega
    · omega
  · omega

/- A path that ends below the limit. -/
theorem Uncut.append
    (hTree : PrevTree backRefs start prevNode depth)
    (hBase : ∀ t ∈ base, ∃ q ∈ done, OnChain prevNode q t)
    (hUncut : Uncut prevNode limit done base)
    (hPath : PathDown prevNode limit base r y path)
    (hBelow : (base ++ path).length < limit)
    (hEnd :
      y = start ∨ ∃ p, prevNode y = some p ∧ p ∈ base) :
    Uncut prevNode limit (done ++ [r]) (base ++ path) := by
  refine ⟨hPath.nodup_append hUncut.nodup, ?_,
    Or.inr hBelow⟩
  intro q hQ t hChain
  rcases List.mem_append.mp hQ with hOld | hNew
  · exact List.mem_append_left _
      (hUncut.closed q hOld t hChain)
  · rw [List.mem_singleton.mp hNew] at hChain
    exact List.mem_append.mpr
      (hUncut.mem_of_onChain hTree hBase hPath hEnd hChain)

/- The first path that is cut off. -/
theorem Uncut.cutOff
    (hBase : ∀ t ∈ base, ∃ q ∈ done, OnChain prevNode q t)
    (hUncut : Uncut prevNode limit done base)
    (hPath : PathDown prevNode limit base r y path)
    (hFull : limit ≤ (base ++ path).length) :
    CutOff prevNode limit (done ++ [r])
      (base ++ path ++
        if done.length + 1 = 1 then [start] else []) := by
  have hRoom := hPath.length_le hBase hUncut
  have hPos := List.length_pos_of_mem hPath.mem_head
  have hSum := @List.length_append _ base path
  have hLength :
      (done ++ [r]).length = done.length + 1 := by
    rw [List.length_append, List.length_singleton]
  have hEnd :
      (base ++ path ++
          if done.length + 1 = 1 then [start] else []).length =
        (base ++ path).length +
          if done.length = 0 then 1 else 0 := by
    rw [@List.length_append _ (base ++ path)]
    by_cases hZero : done.length = 0
    · simp [hZero]
    · simp [hZero]
  refine ⟨by simp, ?_,
    ⟨base ++ path, hPath.nodup_append hUncut.nodup, hFull,
      hPath.onChain_append hBase⟩, ?_, ?_⟩
  · rw [hEnd]
    omega
  · intro hZero
    have hNil : done.length = 0 := by
      rcases hUncut.short with hNil | hShort
      · rw [hNil, List.length_nil]
      · omega
    rw [hEnd, hLength, if_pos hNil, hNil]
    omega
  · intro hLimit
    rw [hEnd, hLength]
    split_ifs
    · omega
    · omega

/- After a path was cut off, one tag a path is added. -/
theorem CutOff.append
    (hCut : CutOff prevNode limit done base) :
    CutOff prevNode limit (done ++ [r]) (base ++ [r]) := by
  have hFull := hCut.full
  rcases hCut.many with ⟨shown, hNodup, hMany, hShown⟩
  refine ⟨by simp, ?_, ⟨shown, hNodup, hMany, ?_⟩, ?_, ?_⟩
  · rw [List.length_append]
    omega
  · intro t hMem
    rcases hShown t hMem with ⟨q, hQ, hChain⟩
    exact ⟨q, List.mem_append_left _ hQ, hChain⟩
  · intro hZero
    have hOld := hCut.zero hZero
    rw [List.length_append, List.length_append]
    omega
  · intro hLimit
    have hOld := hCut.pos hLimit
    rw [List.length_append, List.length_append]
    omega

/- How many tags one more path adds. -/
theorem Stopped.counted
    (hTree : PrevTree backRefs start prevNode depth)
    (hBase : ∀ t ∈ base, ∃ q ∈ done, OnChain prevNode q t)
    (hCounted :
      Uncut prevNode limit done base ∨
        CutOff prevNode limit done base)
    (hPath : PathDown prevNode limit base r y path)
    (hStopped :
      Stopped prevNode start limit (done.length + 1) base y
        path tags) :
    Uncut prevNode limit (done ++ [r]) tags ∨
      CutOff prevNode limit (done ++ [r]) tags := by
  rcases hCounted with hUncut | hCut
  · cases hStopped with
    | whole hBelow hEnd =>
        exact Or.inl
          (hUncut.append hTree hBase hPath hBelow hEnd)
    | full hFull =>
        exact Or.inr (hUncut.cutOff hBase hPath hFull)
  · have hSingle := hPath.eq_singleton hCut.full
    have hNe : done.length ≠ 0 :=
      fun hZero => hCut.begun (List.length_eq_zero_iff.mp hZero)
    have hFullBase := hCut.full
    cases hStopped with
    | whole hBelow _ =>
        rw [List.length_append] at hBelow
        omega
    | full _ =>
        rw [if_neg (by omega), List.append_nil, hSingle]
        exact Or.inr hCut.append

theorem Reached.init :
    Reached prevNode start limit roots []
      ⟨[], fun _ => none⟩ := by
  refine ⟨?_, Or.inl rfl, ?_, ?_, Or.inl ⟨?_, ?_, Or.inl rfl⟩⟩
  · intro t
    simp [Paths.tags]
  · simp [Paths.tags]
  · simp [Paths.tags]
  · exact List.nodup_nil
  · simp

/- Roots in the order of their depths are not met early. -/
theorem Reached.fresh
    (hTree : PrevTree backRefs start prevNode depth)
    (hReached : Reached prevNode start limit roots done s)
    (hNodup : roots.Nodup)
    (hSorted :
      roots.Pairwise (fun a b => depth a ≤ depth b))
    (hRoots : roots = done ++ r :: rest) :
    r ∉ s.tags := by
  intro hMem
  rw [hRoots] at hNodup hSorted
  rcases hReached.onChain r hMem with ⟨q, hQ, hChain⟩
  rcases OnChain.depth_lt hTree hChain with hEq | hLess
  · exact (List.nodup_append.mp hNodup).2.2 q hQ r
      List.mem_cons_self hEq
  · have hLe :=
      (List.pairwise_append.mp hSorted).2.2 q hQ r
        List.mem_cons_self
    omega

/- One more path. -/
theorem Reached.next
    (hTree : PrevTree backRefs start prevNode depth)
    (hRoots : roots = done ++ r :: rest)
    (hReached : Reached prevNode start limit roots done s)
    (hPrev : prevNode r ≠ none)
    (hKeyed : Keyed s')
    (hPath : PathDown prevNode limit s.tags r y path)
    (hStopped :
      Stopped prevNode start limit (done.length + 1) s.tags y
        path s'.tags) :
    Reached prevNode start limit roots (done ++ [r]) s' := by
  have hLength :
      (done ++ [r]).length = done.length + 1 := by
    rw [List.length_append, List.length_singleton]
  refine ⟨hKeyed, Or.inr ?_, ?_, ?_,
    hStopped.counted hTree hReached.onChain hReached.counted
      hPath⟩
  · generalize hTags : s'.tags = tags at hStopped
    cases hStopped with
    | full _ =>
        split_ifs with hCnt
        · exact List.mem_append_right _
            (List.mem_singleton_self start)
        · have hMem :=
            hReached.base.resolve_left (by
              intro hNil
              rw [hNil] at hCnt
              exact hCnt rfl)
          exact List.mem_append_left _
            (List.mem_append_left _ hMem)
    | whole _ hEnd =>
        rcases hEnd with hStart | ⟨p, _, hMem⟩
        · rw [← hStart]
          exact List.mem_append_right _ hPath.mem_last
        · refine List.mem_append_left _
            (hReached.base.resolve_left ?_)
          intro hNil
          rw [eq_nil_of_onChain hReached.onChain hNil] at hMem
          exact List.not_mem_nil hMem
  · intro t hMem
    by_cases hEq : t = start
    · rw [hEq]
      exact ⟨r, by simp, hTree.onChain_start hPrev⟩
    · exact hPath.onChain_append hReached.onChain t
        (List.mem_append.mpr ((hStopped.mem_iff hEq).mp hMem))
  · intro t hNe
    rw [hStopped.mem_iff hNe, hReached.emitted t hNe, hLength]
    constructor
    · rintro (⟨i, hLt, hEmits⟩ | hNew)
      · exact ⟨i, Nat.lt_succ_of_lt hLt, hEmits⟩
      · exact ⟨done.length, Nat.lt_succ_self _,
          hPath.emitsAt hRoots hReached.onChain
            hReached.counted hNew⟩
    · rintro ⟨i, hLt, hEmits⟩
      rcases Nat.lt_succ_iff_lt_or_eq.mp hLt with
        hOld | hEq
      · exact Or.inl ⟨i, hOld, hEmits⟩
      · rw [hEq] at hEmits
        exact (hPath.mem_of_emitsAt hTree hRoots
          hReached.onChain hReached.counted hStopped
          hEmits).imp_left (hReached.emitted t hNe).mp

/- The path of the next root is walked. -/
theorem Reached.walks
    (hTree : PrevTree backRefs start prevNode depth)
    (hZero : depth start = 0)
    (hNodup : roots.Nodup)
    (hSorted :
      roots.Pairwise (fun a b => depth a ≤ depth b))
    (hRoots : roots = done ++ r :: rest)
    (hPrev : prevNode r ≠ none)
    (hReached : Reached prevNode start limit roots done s) :
    ∃ s',
      (∃ n, ∀ fuel, n ≤ fuel →
        walkPath backRefs prevNode start limit
            (done.length + 1) fuel r
            ⟨s.nodesToPathNum ++ [(r, done.length)],
              insertRootInfos backRefs r s.tagToInfos⟩ =
          some s') ∧
      Reached prevNode start limit roots (done ++ [r]) s' := by
  have hNew : r ∉ s.tags :=
    hReached.fresh hTree hNodup hSorted hRoots
  have hBase : done.length = 0 ∨ start ∈ s.tags :=
    hReached.base.imp_left
      (fun hNil => List.length_eq_zero_iff.mpr hNil)
  rcases walkPath_stopped hTree hZero limit done.length
      hReached.keyed hBase hNew hPrev with
    ⟨s', hWalk, hKeyed, y, path, hPath, hStopped⟩
  exact ⟨s', ⟨depth r + 1, fun fuel hFuel =>
      hWalk fuel (by omega)⟩,
    hReached.next hTree hRoots hPrev hKeyed hPath hStopped⟩

end Several

------------------------------------------------------------
-- Both Limits
------------------------------------------------------------

/-
  The path of the root at `i` is begun.  Before it, the chains
  of the roots have `count` tags.
-/
def Begins (roots objects i count : Nat) : Prop :=
  roots < objects ∨
    (roots = objects ∧ (i = 0 ∨ i + 1 < roots)) ∨
    (objects < roots ∧ count < objects)

/- The paths that are begun reach `w` before the limit. -/
def Emits
    (prevNode : jlong → Option jlong)
    (roots : List jlong)
    (objectsNumber : Int32)
    (w : jlong) : Prop :=
  ∃ (i : Nat) (chain : Finset jlong),
    FirstChains prevNode roots i chain ∧
      Begins roots.length (toSize objectsNumber) i
        chain.card ∧
      EmitsAt prevNode roots
        (pathsLimit objectsNumber roots.length) i w

section Limits

variable {backRefs : jlong → List ReferenceInfo}
variable {start r : jlong}
variable {prevNode : jlong → Option jlong}
variable {depth : jlong → Nat}
variable {objects limit : Nat}
variable {done rest roots : List jlong}
variable {s : Paths}

/- Paths are begun in the order of the roots. -/
theorem Begins.of_le
    {i j count count' : Nat}
    (hBegins : Begins roots.length objects j count')
    (hLe : i ≤ j)
    (hCount : count ≤ count') :
    Begins roots.length objects i count := by
  unfold Begins at hBegins ⊢
  omega

/- The next path is begun while there are too few tags. -/
theorem Reached.begins_iff
    (hReached : Reached prevNode start limit roots done s)
    (hRoots : roots = done ++ r :: rest)
    (hNoWrap :
      roots.length ≤ objects → limit + roots.length = objects)
    (hWrap : objects < roots.length → objects < limit)
    {chain : Finset jlong}
    (hChain :
      FirstChains prevNode roots done.length chain) :
    s.nodesToPathNum.length < objects ↔
      Begins roots.length objects done.length chain.card := by
  rw [← s.length_tags]
  have hLength : done.length < roots.length := by
    rw [hRoots, List.length_append, List.length_cons]
    omega
  have hOn :
      ∀ t, t ∈ chain ↔ ∃ q ∈ done, OnChain prevNode q t := by
    intro t
    rw [hChain t, hRoots, List.take_left]
  unfold Begins
  rcases hReached.counted with hUncut | hCut
  · have hCard : chain.card = s.tags.length := by
      have hEq : chain = s.tags.toFinset := by
        ext t
        rw [hOn t, List.mem_toFinset]
        constructor
        · rintro ⟨q, hQ, hOnQ⟩
          exact hUncut.closed q hQ t hOnQ
        · exact hReached.onChain t
      rw [hEq, List.toFinset_card_of_nodup hUncut.nodup]
    rcases hUncut.short with hNil | hShort
    · have hZero : s.tags.length = 0 :=
        List.length_eq_zero_iff.mpr
          (eq_nil_of_onChain hReached.onChain hNil)
      have hFirst : done.length = 0 :=
        List.length_eq_zero_iff.mpr hNil
      omega
    · rw [hCard]
      omega
  · rcases hCut.many with ⟨shown, hNodup, hMany, hShown⟩
    have hCard : limit ≤ chain.card :=
      hMany.trans (length_le_card_of_mem hNodup
        (fun t hMem => (hOn t).mpr (hShown t hMem)))
    have hPos : done.length ≠ 0 :=
      fun hZero => hCut.begun (List.length_eq_zero_iff.mp hZero)
    have hFull := hCut.full
    rcases Nat.eq_zero_or_pos limit with hZero | hSome
    · have hEq := hCut.zero hZero
      omega
    · have hLe := hCut.pos hSome
      omega

/- A chain is finite. -/
theorem exists_chain
    (hTree : PrevTree backRefs start prevNode depth)
    (hPrev : prevNode r ≠ none) :
    ∃ chain : Finset jlong,
      ∀ t, t ∈ chain ↔ OnChain prevNode r t := by
  generalize hDepth : depth r = d
  induction d using Nat.strongRecOn generalizing r with
  | ind d ih =>
      by_cases hEq : r = start
      · refine ⟨{start}, ?_⟩
        intro t
        rw [Finset.mem_singleton, hEq]
        constructor
        · rintro rfl
          exact Relation.ReflTransGen.refl
        · exact fun hChain => hChain.eq_start hTree
      · rcases Option.ne_none_iff_exists'.mp hPrev with
          ⟨p, hP⟩
        have hStep := (hTree.step r p hEq hP).2
        rcases ih (depth p) (by omega) (hTree.total r p hP)
            rfl with ⟨chain, hChain⟩
        refine ⟨insert r chain, ?_⟩
        intro t
        rw [Finset.mem_insert, hChain t]
        constructor
        · rintro (rfl | hOn)
          · exact Relation.ReflTransGen.refl
          · exact Relation.ReflTransGen.head hP hOn
        · intro hOn
          by_cases hSame : r = t
          · exact Or.inl hSame.symm
          · exact Or.inr (hOn.below hSame hP)

theorem exists_firstChains
    (hTree : PrevTree backRefs start prevNode depth)
    (hRoots : ∀ q ∈ roots, prevNode q ≠ none)
    (k : Nat) :
    ∃ chain, FirstChains prevNode roots k chain := by
  unfold FirstChains
  have hTake : ∀ q ∈ roots.take k, prevNode q ≠ none :=
    fun q hMem => hRoots q (List.mem_of_mem_take hMem)
  generalize roots.take k = first at hTake
  induction first with
  | nil => exact ⟨∅, by simp⟩
  | cons q first ih =>
      rcases ih (fun p hMem =>
          hTake p (List.mem_cons_of_mem q hMem)) with
        ⟨chain, hChain⟩
      rcases exists_chain hTree
          (hTake q List.mem_cons_self) with ⟨own, hOwn⟩
      refine ⟨own ∪ chain, ?_⟩
      intro t
      rw [Finset.mem_union, hOwn t, hChain t]
      simp

/- Of fewer roots, the chains have fewer tags. -/
theorem FirstChains.card_le
    {i j : Nat}
    {first chain : Finset jlong}
    (hFirst : FirstChains prevNode roots i first)
    (hChain : FirstChains prevNode roots j chain)
    (hLe : i ≤ j) :
    first.card ≤ chain.card := by
  apply Finset.card_le_card
  intro x hX
  rcases (hFirst x).mp hX with ⟨q, hQ, hOn⟩
  exact (hChain x).mpr ⟨q,
    (List.take_subset_take_left roots hLe) hQ, hOn⟩

/- The limit of a path, with and without a wrap. -/
theorem pathsLimit_cases
    (objectsNumber : Int32)
    {rootsSize : Nat}
    (hFew : rootsSize < 2 ^ 64) :
    (rootsSize ≤ toSize objectsNumber →
        pathsLimit objectsNumber rootsSize + rootsSize =
          toSize objectsNumber) ∧
      (toSize objectsNumber < rootsSize →
        toSize objectsNumber <
          pathsLimit objectsNumber rootsSize) := by
  unfold pathsLimit toSize
  omega

/-
  The tags on the paths are the start and those that are
  reached with both limits.
-/
theorem createPaths_emits
    (hTree : PrevTree backRefs start prevNode depth)
    (hZero : depth start = 0)
    (objectsNumber : Int32)
    (hNodup : roots.Nodup)
    (hSorted :
      roots.Pairwise (fun a b => depth a ≤ depth b))
    (hPrev : ∀ q ∈ roots, prevNode q ≠ none)
    (hFew : roots.length < 2 ^ 64) :
    ∃ s,
      (∃ n, ∀ fuel, n ≤ fuel →
        createPaths backRefs prevNode start objectsNumber
          fuel roots = some s) ∧
      ∀ t, t ≠ start →
        (t ∈ s.tags ↔
          Emits prevNode roots objectsNumber t) := by
  rcases pathsLimit_cases objectsNumber hFew with
    ⟨hNoWrap, hWrap⟩
  rcases walkPaths_rule objectsNumber roots
      (fun done s =>
        Reached prevNode start
            (pathsLimit objectsNumber roots.length) roots done
            s ∧
          ∀ i < done.length, ∀ chain,
            FirstChains prevNode roots i chain →
              Begins roots.length (toSize objectsNumber) i
                chain.card)
      (by
        rintro done r rest s hSplit ⟨hReached, hBegun⟩ hMore
        have hMem : r ∈ roots := by
          rw [hSplit]
          simp
        rcases hReached.walks hTree hZero hNodup hSorted hSplit
            (hPrev r hMem) with ⟨s', hWalk, hNext⟩
        refine ⟨s', hWalk, hNext, ?_⟩
        intro i hLt chain hChain
        rw [List.length_append, List.length_singleton] at hLt
        rcases Nat.lt_succ_iff_lt_or_eq.mp hLt with
          hOld | hEq
        · exact hBegun i hOld chain hChain
        · rw [hEq] at hChain ⊢
          exact (hReached.begins_iff hSplit
            (fun hLe => hNoWrap hLe) hWrap hChain).mp hMore)
      [] roots rfl
      ⟨Reached.init, fun i hLt =>
        absurd hLt (Nat.not_lt_zero i)⟩ with
    ⟨done, rest, s, hSplit, hEnd, ⟨hReached, hBegun⟩, hRun⟩
  refine ⟨s, hRun, ?_⟩
  intro t hNe
  rw [hReached.emitted t hNe]
  constructor
  · rintro ⟨i, hLt, hEmits⟩
    rcases exists_firstChains hTree hPrev i with
      ⟨chain, hChain⟩
    exact ⟨i, chain, hChain, hBegun i hLt chain hChain,
      hEmits⟩
  · rintro ⟨i, chain, hChain, hBegins, hEmits⟩
    refine ⟨i, ?_, hEmits⟩
    by_contra hGe
    -- The loop has ended before the root at `i`.
    have hLe : done.length ≤ i := Nat.le_of_not_lt hGe
    rcases hEmits with ⟨r, hGet, _⟩
    have hLt := (List.getElem?_eq_some_iff.mp hGet).1
    cases rest with
    | nil =>
        rw [hSplit, List.append_nil] at hLt
        omega
    | cons q rest =>
        have hFull := hEnd.resolve_left (List.cons_ne_nil q rest)
        rcases exists_firstChains hTree hPrev done.length with
          ⟨first, hFirst⟩
        have hCard := hFirst.card_le hChain hLe
        have hMore :=
          (hReached.begins_iff hSplit hNoWrap hWrap
            hFirst).mpr (hBegins.of_le hLe hCard)
        omega

end Limits

end Roots

end MemoryAgent
