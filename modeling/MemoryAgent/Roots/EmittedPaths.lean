import MemoryAgent.Roots.RealLinks

/-
  What the loop over the found roots emits: which tags, which
  links between them, and which marks for the paths that are
  cut off.

  Key definitions include:
    * `Roots.OnChain`
    * `Roots.linkCount`
    * `Roots.truncations`
    * `Roots.Ended`
    * `Roots.Emitted`

  Main results:
    * `Roots.walkPath_ended`
    * `Roots.Emitted.extend`
    * `Roots.Emitted.cutOff`
-/

------------------------------------------------------------
-- Chains to the Start
------------------------------------------------------------

namespace MemoryAgent

namespace Roots

open ClosestGcRoots BreadthFirst

/- `y` lies on the chain from `tag` to the start. -/
def OnChain
    (prevNode : jlong → Option jlong) :
    jlong → jlong → Prop :=
  Relation.ReflTransGen (fun a b => prevNode a = some b)

/- The number of steps to the start is `n`. -/
def StepsToStart
    (prevNode : jlong → Option jlong)
    (start tag : jlong)
    (n : Nat) : Prop :=
  follow prevNode n tag = some start ∧
    ∀ m < n, follow prevNode m tag ≠ some start

section Chains

variable {backRefs : jlong → List ReferenceInfo}
variable {start tag : jlong}
variable {prevNode : jlong → Option jlong}
variable {depth : jlong → Nat}

theorem StepsToStart.unique
    {m n : Nat}
    (hM : StepsToStart prevNode start tag m)
    (hN : StepsToStart prevNode start tag n) :
    m = n := by
  rcases Nat.lt_trichotomy m n with hLt | hEq | hGt
  · exact absurd hM.1 (hN.2 m hLt)
  · exact hEq
  · exact absurd hN.1 (hM.2 n hGt)

theorem PrevTree.depth_pos
    (hTree : PrevTree backRefs start prevNode depth)
    (hPrev : prevNode tag ≠ none)
    (hNe : tag ≠ start) :
    0 < depth tag := by
  rcases Option.ne_none_iff_exists'.mp hPrev with ⟨b, hB⟩
  have hStep := (hTree.step tag b hNe hB).2
  omega

theorem PrevTree.stepsToStart
    (hTree : PrevTree backRefs start prevNode depth)
    (hZero : depth start = 0)
    (hPrev : prevNode tag ≠ none) :
    StepsToStart prevNode start tag (depth tag) := by
  generalize hDepth : depth tag = d
  induction d generalizing tag with
  | zero =>
      have hEq : tag = start := by
        by_contra hNe
        have hPos := hTree.depth_pos hPrev hNe
        omega
      rw [hEq]
      exact ⟨rfl, fun m hLt => absurd hLt (Nat.not_lt_zero m)⟩
  | succ d ih =>
      have hNe : tag ≠ start := by
        intro hEq
        rw [hEq, hZero] at hDepth
        cases hDepth
      rcases Option.ne_none_iff_exists'.mp hPrev with
        ⟨b, hB⟩
      have hStep := (hTree.step tag b hNe hB).2
      rcases ih (hTree.total tag b hB) (by omega) with
        ⟨hFollow, hBefore⟩
      refine ⟨?_, ?_⟩
      · simp [follow, hB, hFollow]
      · intro m hLt
        cases m with
        | zero =>
            intro hSame
            exact hNe (Option.some.inj hSame)
        | succ m =>
            simpa [follow, hB] using hBefore m (by omega)

theorem PrevTree.onChain_start
    (hTree : PrevTree backRefs start prevNode depth)
    (hPrev : prevNode tag ≠ none) :
    OnChain prevNode tag start := by
  generalize hDepth : depth tag = d
  induction d using Nat.strongRecOn generalizing tag with
  | ind d ih =>
      by_cases hEq : tag = start
      · rw [hEq]
        exact Relation.ReflTransGen.refl
      · rcases Option.ne_none_iff_exists'.mp hPrev with
          ⟨b, hB⟩
        have hStep := (hTree.step tag b hEq hB).2
        exact Relation.ReflTransGen.head hB
          (ih (depth b) (by omega) (hTree.total tag b hB)
            rfl)

/- `truncatePath` counts the steps to the start. -/
theorem lengthToStart_eq
    (hTree : PrevTree backRefs start prevNode depth)
    (hZero : depth start = 0)
    (hPrev : prevNode tag ≠ none)
    {fuel : Nat}
    (hFuel : depth tag < fuel) :
    lengthToStart prevNode fuel tag =
      some (depth tag : Int) := by
  generalize hDepth : depth tag = d at *
  induction d generalizing tag fuel with
  | zero =>
      have hEq : tag = start := by
        by_contra hNe
        have hPos := hTree.depth_pos hPrev hNe
        omega
      cases fuel with
      | zero => omega
      | succ fuel =>
          rw [hEq]
          simp [lengthToStart, hTree.start_prev]
  | succ d ih =>
      have hNe : tag ≠ start := by
        intro hEq
        rw [hEq, hZero] at hDepth
        cases hDepth
      rcases Option.ne_none_iff_exists'.mp hPrev with
        ⟨b, hB⟩
      have hStep := (hTree.step tag b hNe hB).2
      have hNeB : b ≠ tag := by
        intro hEq
        rw [hEq] at hStep
        omega
      cases fuel with
      | zero => omega
      | succ fuel =>
          have hRest :=
            ih (hTree.total tag b hB) (by omega)
              (show d < fuel by omega)
          simp [lengthToStart, hB, hNeB, hRest]

end Chains

------------------------------------------------------------
-- The Inner Loop
------------------------------------------------------------

/-
  How the inner loop ends at the tag `y` with the paths `t`:
  at the limit, at the start, or by joining an earlier path.
-/
inductive Ended
    (backRefs : jlong → List ReferenceInfo)
    (prevNode : jlong → Option jlong)
    (start : jlong)
    (depth : jlong → Nat)
    (limit cnt : Nat)
    (y : jlong)
    (t : Paths) : Paths → Prop
  | limit :
      limit ≤ t.nodesToPathNum.length →
        Ended backRefs prevNode start depth limit cnt y t
          ⟨if cnt = 1 then t.nodesToPathNum ++ [(start, 1)]
            else t.nodesToPathNum,
            insertTruncatedReferenceInfo start y (depth y)
              t.tagToInfos⟩
  | start :
      t.nodesToPathNum.length < limit → y = start →
        Ended backRefs prevNode start depth limit cnt y t t
  | join {prevTag : jlong} {info : ReferenceInfo} :
      t.nodesToPathNum.length < limit → y ≠ start →
        prevNode y = some prevTag →
          info ∈ backRefs prevTag → info.tag = y →
            t.tagToInfos prevTag ≠ none →
              Ended backRefs prevNode start depth limit cnt
                y t
                ⟨t.nodesToPathNum,
                  appendInfos prevTag [info] t.tagToInfos⟩

section Walk

variable {backRefs : jlong → List ReferenceInfo}
variable {start tag : jlong}
variable {prevNode : jlong → Option jlong}
variable {depth : jlong → Nat}
variable {s : Paths}

/-
  The inner loop keeps what holds when it takes a step below
  the limit to a new tag, until it ends.
-/
theorem walkPath_ended
    (hTree : PrevTree backRefs start prevNode depth)
    (hZero : depth start = 0)
    (limit cnt : Nat)
    (P : jlong → Paths → Prop)
    (hStep :
      ∀ y t prevTag info, P y t →
        t.nodesToPathNum.length < limit → y ≠ start →
          prevNode y = some prevTag →
            info ∈ backRefs prevTag → info.tag = y →
              t.tagToInfos prevTag = none →
                P prevTag
                  ⟨t.nodesToPathNum ++ [(prevTag, cnt)],
                    appendInfos prevTag [info]
                      t.tagToInfos⟩)
    (hPrev : prevNode tag ≠ none)
    (hP : P tag s) :
    ∃ s',
      (∀ fuel, depth tag < fuel →
        walkPath backRefs prevNode start limit cnt fuel tag
          s = some s') ∧
      ∃ y t, prevNode y ≠ none ∧ P y t ∧
        Ended backRefs prevNode start depth limit cnt y t
          s' := by
  generalize hDepth : depth tag = d
  induction d using Nat.strongRecOn generalizing tag s with
  | ind d ih =>
      by_cases hLimit : limit ≤ s.nodesToPathNum.length
      · refine ⟨_, ?_, tag, s, hPrev, hP,
          Ended.limit hLimit⟩
        intro fuel hFuel
        cases fuel with
        | zero => omega
        | succ fuel =>
            have hLength :=
              lengthToStart_eq hTree hZero hPrev
                (show depth tag < fuel + 1 by omega)
            simp [walkPath, hLimit, truncatePath, hLength]
      · have hBelow : s.nodesToPathNum.length < limit :=
          Nat.lt_of_not_le hLimit
        by_cases hEq : tag = start
        · refine ⟨s, ?_, tag, s, hPrev, hP,
            Ended.start hBelow hEq⟩
          intro fuel hFuel
          cases fuel with
          | zero => omega
          | succ fuel =>
              have hSelf : prevNode tag = some tag := by
                rw [hEq]
                exact hTree.start_prev
              simp [walkPath, hLimit, hSelf]
        · rcases Option.ne_none_iff_exists'.mp hPrev with
            ⟨prevTag, hPrevTag⟩
          rcases hTree.step tag prevTag hEq hPrevTag with
            ⟨hBack, hDepthTag⟩
          have hNe : prevTag ≠ tag := by
            intro hSame
            rw [hSame] at hDepthTag
            omega
          rcases exists_getReferrerInfo hBack with
            ⟨info, hGet, hInfo, hTag⟩
          by_cases hKnown : s.tagToInfos prevTag = none
          · have hNext :=
              hStep tag s prevTag info hP hBelow hEq
                hPrevTag hInfo hTag hKnown
            rcases ih (depth prevTag) (by omega)
                (hTree.total tag prevTag hPrevTag) hNext
                rfl with ⟨s', hWalk, hEnded⟩
            refine ⟨s', ?_, hEnded⟩
            intro fuel hFuel
            cases fuel with
            | zero => omega
            | succ fuel =>
                have hRest := hWalk fuel (by omega)
                simp [walkPath, hLimit, hPrevTag, hNe,
                  insertInfos, hGet, hKnown, hRest]
          · refine ⟨_, ?_, tag, s, hPrev, hP,
              Ended.join hBelow hEq hPrevTag hInfo hTag
                hKnown⟩
            intro fuel hFuel
            cases fuel with
            | zero => omega
            | succ fuel =>
                have hSome :
                    (s.tagToInfos prevTag).isSome = true :=
                  Option.isSome_iff_ne_none.mpr hKnown
                simp [walkPath, hLimit, hPrevTag, hNe,
                  insertInfos, hGet, hSome]

end Walk

------------------------------------------------------------
-- Links, Root References and Marks
------------------------------------------------------------

/- How often the reference of `y` is shown for `p`. -/
def linkCount
    (tagToInfos : Infos)
    (p y : jlong) : Nat :=
  ((tagToInfos p).getD []).countP
    (fun info =>
      info.tag == y && info.kind != .memoryAgentTruncate)

/- The root references that are shown for a tag. -/
def shownRootInfos
    (tagToInfos : Infos)
    (t : jlong) : List ReferenceInfo :=
  ((tagToInfos t).getD []).filter
    (fun info => info.tag == rootTag)

/- The marks of truncated paths that are shown for a tag. -/
def truncations
    (tagToInfos : Infos)
    (t : jlong) : List ReferenceInfo :=
  ((tagToInfos t).getD []).filter
    (fun info => info.kind == .memoryAgentTruncate)

section Append

variable {tagToInfos : Infos}
variable {tag t p y : jlong}
variable {new : List ReferenceInfo}

theorem getD_appendInfos
    (tag : jlong)
    (new : List ReferenceInfo)
    (tagToInfos : Infos)
    (t : jlong) :
    (appendInfos tag new tagToInfos t).getD [] =
      (tagToInfos t).getD [] ++
        if t = tag then new else [] := by
  by_cases hEq : t = tag
  · rw [hEq, appendInfos_self, if_pos rfl]
    rfl
  · rw [appendInfos_of_ne new tagToInfos hEq, if_neg hEq,
      List.append_nil]

/- Showing in two steps is showing at once. -/
theorem appendInfos_appendInfos
    (tag : jlong)
    (new more : List ReferenceInfo)
    (tagToInfos : Infos) :
    appendInfos tag more (appendInfos tag new tagToInfos) =
      appendInfos tag (new ++ more) tagToInfos := by
  funext t
  by_cases hEq : t = tag
  · rw [hEq, appendInfos_self, appendInfos_self,
      appendInfos_self, Option.getD_some,
      List.append_assoc]
  · rw [appendInfos_of_ne _ _ hEq, appendInfos_of_ne _ _ hEq,
      appendInfos_of_ne _ _ hEq]

theorem linkCount_append :
    linkCount (appendInfos tag new tagToInfos) p y =
      linkCount tagToInfos p y +
        if p = tag then
          new.countP (fun info =>
            info.tag == y &&
              info.kind != .memoryAgentTruncate)
        else 0 := by
  unfold linkCount
  rw [getD_appendInfos, List.countP_append]
  by_cases hEq : p = tag
  · rw [if_pos hEq, if_pos hEq]
  · rw [if_neg hEq, if_neg hEq, List.countP_nil]

theorem shownRootInfos_append :
    shownRootInfos (appendInfos tag new tagToInfos) t =
      shownRootInfos tagToInfos t ++
        if t = tag then
          new.filter (fun info => info.tag == rootTag)
        else [] := by
  unfold shownRootInfos
  rw [getD_appendInfos, List.filter_append]
  by_cases hEq : t = tag
  · rw [if_pos hEq, if_pos hEq]
  · rw [if_neg hEq, if_neg hEq, List.filter_nil]

theorem truncations_append :
    truncations (appendInfos tag new tagToInfos) t =
      truncations tagToInfos t ++
        if t = tag then
          new.filter (fun info =>
            info.kind == .memoryAgentTruncate)
        else [] := by
  unfold truncations
  rw [getD_appendInfos, List.filter_append]
  by_cases hEq : t = tag
  · rw [if_pos hEq, if_pos hEq]
  · rw [if_neg hEq, if_neg hEq, List.filter_nil]

end Append

------------------------------------------------------------
-- What Is Emitted
------------------------------------------------------------

/- The mark of a path that is cut off at `y`. -/
def truncation
    (depth : jlong → Nat)
    (y : jlong) : ReferenceInfo :=
  ⟨y, .memoryAgentTruncate, .index (depth y)⟩

/-
  Paths have been emitted for `roots`, and `cuts` are the last
  tags of those that were cut off.  Every tag but the open
  ends is linked once, from its predecessor.
-/
structure Emitted
    (backRefs : jlong → List ReferenceInfo)
    (start : jlong)
    (prevNode : jlong → Option jlong)
    (depth : jlong → Nat)
    (roots openEnds cuts : List jlong)
    (s : Paths) : Prop where
  nodup : s.tags.Nodup
  keys : ∀ t, t ∈ s.tags ↔ s.tagToInfos t ≠ none
  discovered : ∀ t ∈ s.tags, prevNode t ≠ none
  links :
    ∀ p y, y ≠ rootTag →
      linkCount s.tagToInfos p y =
        if y ∈ s.tags ∧ y ≠ start ∧ y ∉ openEnds ∧
            prevNode y = some p then 1
        else 0
  closed :
    ∀ y ∈ s.tags, y ∉ openEnds →
      ∀ p, prevNode y = some p → p ∈ s.tags
  roots_mem : ∀ r ∈ roots, r ∈ s.tags
  open_mem : ∀ y ∈ openEnds, y ∈ s.tags
  rootInfos :
    ∀ t,
      shownRootInfos s.tagToInfos t =
        if t ∈ roots then
          (backRefs t).filter
            (fun info => info.tag == rootTag)
        else []
  truncated :
    ∀ t,
      truncations s.tagToInfos t =
        if t = start then cuts.map (truncation depth)
        else []
  below :
    ∀ y ∈ s.tags,
      y ∈ roots ∨
        ∃ r ∈ roots, OnChain prevNode r y ∧
          depth y < depth r

/- The recorded references have kinds of JVMTI. -/
def Untruncated
    (backRefs : jlong → List ReferenceInfo)
    (prevNode : jlong → Option jlong) : Prop :=
  ∀ t, prevNode t ≠ none →
    ∀ info ∈ backRefs t, info.kind ≠ .memoryAgentTruncate

section Emit

variable {backRefs : jlong → List ReferenceInfo}
variable {start x y p : jlong}
variable {prevNode : jlong → Option jlong}
variable {depth : jlong → Nat}
variable {roots openEnds cuts : List jlong}
variable {s : Paths}

theorem Emitted.init :
    Emitted backRefs start prevNode depth [] [] []
      ⟨[], fun _ => none⟩ := by
  constructor
  · exact List.nodup_nil
  · intro t
    simp [Paths.tags]
  · simp [Paths.tags]
  · simp [Paths.tags, linkCount]
  · simp [Paths.tags]
  · simp
  · simp
  · simp [shownRootInfos]
  · simp [truncations]
  · simp [Paths.tags]

/-
  A new tag, a found root with its root references or another
  one, is an open end.
-/
theorem Emitted.emit
    (hEmitted :
      Emitted backRefs start prevNode depth roots openEnds
        cuts s)
    (hKinds : Untruncated backRefs prevNode)
    (hNew : x ∉ s.tags)
    (hPrev : prevNode x ≠ none)
    (cnt : Nat)
    (roots' : List jlong)
    (new : List ReferenceInfo)
    (hRoots : ∀ r, r ∈ roots' ↔ r ∈ roots ∨
      (r = x ∧ x ∈ roots'))
    (hBelow :
      x ∈ roots' ∨
        ∃ r ∈ roots, OnChain prevNode r x ∧
          depth x < depth r)
    (hInfos :
      new =
        if x ∈ roots' then
          (backRefs x).filter
            (fun info => info.tag == rootTag)
        else []) :
    Emitted backRefs start prevNode depth roots'
      (openEnds ++ [x]) cuts
      ⟨s.nodesToPathNum ++ [(x, cnt)],
        appendInfos x new s.tagToInfos⟩ := by
  have hTags :
      (⟨s.nodesToPathNum ++ [(x, cnt)],
        appendInfos x new s.tagToInfos⟩ : Paths).tags =
        s.tags ++ [x] := by
    simp [Paths.tags]
  have hNotRoot : x ∉ roots :=
    fun hMem => hNew (hEmitted.roots_mem x hMem)
  have hNone : s.tagToInfos x = none := by
    by_contra hSome
    exact hNew ((hEmitted.keys x).mpr hSome)
  have hMemNew :
      ∀ info ∈ new,
        info.tag = rootTag ∧
          info.kind ≠ .memoryAgentTruncate := by
    intro info hMem
    rw [hInfos] at hMem
    by_cases hRoot : x ∈ roots'
    · rw [if_pos hRoot] at hMem
      rcases List.mem_filter.mp hMem with ⟨hInfo, hTag⟩
      exact ⟨by simpa using hTag, hKinds x hPrev info hInfo⟩
    · rw [if_neg hRoot] at hMem
      exact absurd hMem List.not_mem_nil
  constructor
  · rw [hTags]
    exact List.nodup_append.mpr
      ⟨hEmitted.nodup, List.nodup_singleton x,
        fun a hA b hB hEq =>
          hNew (List.mem_singleton.mp hB ▸ hEq ▸ hA)⟩
  · intro t
    rw [hTags]
    change t ∈ s.tags ++ [x] ↔
      appendInfos x new s.tagToInfos t ≠ none
    by_cases hEq : t = x
    · rw [hEq, appendInfos_self]
      simp
    · rw [appendInfos_of_ne new s.tagToInfos hEq,
        ← hEmitted.keys t]
      simp [hEq]
  · rw [hTags]
    intro t hMem
    rcases List.mem_append.mp hMem with hOld | hX
    · exact hEmitted.discovered t hOld
    · rw [List.mem_singleton.mp hX]
      exact hPrev
  · intro q z hZ
    rw [hTags]
    change linkCount (appendInfos x new s.tagToInfos) q z = _
    have hCount :
        new.countP (fun info =>
          info.tag == z &&
            info.kind != .memoryAgentTruncate) = 0 := by
      rw [List.countP_eq_zero]
      intro info hMem
      simp [(hMemNew info hMem).1, hZ.symm]
    rw [linkCount_append, hCount, ite_self, Nat.add_zero,
      hEmitted.links q z hZ]
    by_cases hEq : z = x
    · rw [hEq, if_neg (fun h => hNew h.1),
        if_neg (by simp)]
    · simp [hEq]
  · rw [hTags]
    intro z hMem hNot q hQ
    rcases List.mem_append.mp hMem with hOld | hX
    · apply List.mem_append_left
      refine hEmitted.closed z hOld ?_ q hQ
      exact fun hOpen =>
        hNot (List.mem_append_left [x] hOpen)
    · exact absurd (List.mem_append_right openEnds hX) hNot
  · rw [hTags]
    intro r hMem
    rcases (hRoots r).mp hMem with hOld | ⟨hEq, _⟩
    · exact List.mem_append_left _
        (hEmitted.roots_mem r hOld)
    · simp [hEq]
  · rw [hTags]
    intro z hMem
    rcases List.mem_append.mp hMem with hOld | hX
    · exact List.mem_append_left _
        (hEmitted.open_mem z hOld)
    · exact List.mem_append_right _ hX
  · intro t
    change shownRootInfos (appendInfos x new s.tagToInfos) t
      = _
    rw [shownRootInfos_append, hEmitted.rootInfos t]
    by_cases hEq : t = x
    · subst hEq
      rw [if_neg hNotRoot, if_pos rfl, List.nil_append,
        List.filter_eq_self.mpr
          (fun info hMem => by simp [(hMemNew info hMem).1]),
        hInfos]
    · have hSame : t ∈ roots' ↔ t ∈ roots := by
        rw [hRoots]
        simp [hEq]
      simp [hEq, hSame]
  · intro t
    change truncations (appendInfos x new s.tagToInfos) t = _
    have hFilter :
        new.filter (fun info =>
          info.kind == .memoryAgentTruncate) = [] := by
      rw [List.filter_eq_nil_iff]
      intro info hMem
      simp [(hMemNew info hMem).2]
    rw [truncations_append, hFilter, ite_self,
      List.append_nil, hEmitted.truncated t]
  · rw [hTags]
    intro z hMem
    rcases List.mem_append.mp hMem with hOld | hX
    · rcases hEmitted.below z hOld with
        hRoot | ⟨r, hRoot, hChain⟩
      · exact Or.inl ((hRoots z).mpr (Or.inl hRoot))
      · exact Or.inr
          ⟨r, (hRoots r).mpr (Or.inl hRoot), hChain⟩
    · rw [List.mem_singleton.mp hX]
      rcases hBelow with hRoot | ⟨r, hRoot, hChain⟩
      · exact Or.inl hRoot
      · exact Or.inr
          ⟨r, (hRoots r).mpr (Or.inl hRoot), hChain⟩

/- An open end is linked from its predecessor. -/
theorem Emitted.link
    (hEmitted :
      Emitted backRefs start prevNode depth roots openEnds
        cuts s)
    (hKinds : Untruncated backRefs prevNode)
    (hOpen : y ∈ openEnds)
    (hNe : y ≠ start)
    (hNotRoot : y ≠ rootTag)
    (hPrev : prevNode y = some p)
    (hMem : p ∈ s.tags)
    {info : ReferenceInfo}
    (hInfo : info ∈ backRefs p)
    (hTag : info.tag = y)
    (openEnds' : List jlong)
    (hOpen' :
      ∀ z, z ∈ openEnds' ↔ z ∈ openEnds ∧ z ≠ y) :
    Emitted backRefs start prevNode depth roots openEnds'
      cuts
      ⟨s.nodesToPathNum,
        appendInfos p [info] s.tagToInfos⟩ := by
  have hKind : info.kind ≠ .memoryAgentTruncate :=
    hKinds p (hEmitted.discovered p hMem) info hInfo
  constructor
  · exact hEmitted.nodup
  · intro t
    change t ∈ s.tags ↔
      appendInfos p [info] s.tagToInfos t ≠ none
    by_cases hEq : t = p
    · rw [hEq, appendInfos_self]
      simp [hMem]
    · rw [appendInfos_of_ne [info] s.tagToInfos hEq]
      exact hEmitted.keys t
  · exact hEmitted.discovered
  · intro q z hZ
    change linkCount (appendInfos p [info] s.tagToInfos) q z
      = if z ∈ s.tags ∧ z ≠ start ∧ z ∉ openEnds' ∧
          prevNode z = some q then 1 else 0
    rw [linkCount_append, hEmitted.links q z hZ]
    by_cases hEq : z = y
    · -- The only link that is new.
      have hMemY := hEmitted.open_mem y hOpen
      rw [hEq, if_neg (fun h => h.2.2.1 hOpen)]
      have hClosed : y ∉ openEnds' :=
        fun h => ((hOpen' y).mp h).2 rfl
      by_cases hQ : q = p
      · rw [if_pos hQ, if_pos
          ⟨hMemY, hNe, hClosed, by rw [hPrev, hQ]⟩]
        simp [hTag, hKind]
      · rw [if_neg hQ, if_neg]
        rintro ⟨_, _, _, hSame⟩
        rw [hPrev] at hSame
        exact hQ (Option.some.inj hSame).symm
    · have hCount :
          [info].countP (fun info =>
            info.tag == z &&
              info.kind != .memoryAgentTruncate) = 0 := by
        have hNeTag : info.tag ≠ z := by
          rw [hTag]
          exact fun h => hEq h.symm
        simp [hNeTag]
      have hSame : z ∈ openEnds' ↔ z ∈ openEnds := by
        rw [hOpen']
        simp [hEq]
      rw [hCount, ite_self, Nat.add_zero]
      simp only [hSame]
  · intro z hMemZ hNot q hQ
    by_cases hEq : z = y
    · rw [hEq, hPrev] at hQ
      rw [← Option.some.inj hQ]
      exact hMem
    · refine hEmitted.closed z hMemZ ?_ q hQ
      exact fun h => hNot ((hOpen' z).mpr ⟨h, hEq⟩)
  · exact hEmitted.roots_mem
  · exact fun z h =>
      hEmitted.open_mem z ((hOpen' z).mp h).1
  · intro t
    change shownRootInfos
      (appendInfos p [info] s.tagToInfos) t = _
    have hNone :
        [info].filter (fun info => info.tag == rootTag) =
          [] := by
      simp [hTag, hNotRoot]
    rw [shownRootInfos_append, hNone, ite_self,
      List.append_nil, hEmitted.rootInfos t]
  · intro t
    change truncations (appendInfos p [info] s.tagToInfos) t
      = _
    have hNone :
        [info].filter (fun info =>
          info.kind == .memoryAgentTruncate) = [] := by
      simp [hKind]
    rw [truncations_append, hNone, ite_self,
      List.append_nil, hEmitted.truncated t]
  · exact hEmitted.below

/- The start needs no link. -/
theorem Emitted.closeStart
    (hEmitted :
      Emitted backRefs start prevNode depth roots openEnds
        cuts s)
    (hStart : prevNode start = some start)
    (openEnds' : List jlong)
    (hOpen' :
      ∀ z, z ∈ openEnds' ↔ z ∈ openEnds ∧ z ≠ start) :
    Emitted backRefs start prevNode depth roots openEnds'
      cuts s := by
  refine ⟨hEmitted.nodup, hEmitted.keys,
    hEmitted.discovered, ?_, ?_, hEmitted.roots_mem, ?_,
    hEmitted.rootInfos, hEmitted.truncated,
    hEmitted.below⟩
  · intro q z hZ
    rw [hEmitted.links q z hZ]
    by_cases hEq : z = start
    · simp [hEq]
    · have hSame : z ∈ openEnds' ↔ z ∈ openEnds := by
        rw [hOpen']
        simp [hEq]
      simp only [hSame]
  · intro z hMem hNot q hQ
    by_cases hEq : z = start
    · rw [hEq, hStart] at hQ
      rw [← Option.some.inj hQ, ← hEq]
      exact hMem
    · refine hEmitted.closed z hMem ?_ q hQ
      exact fun h => hNot ((hOpen' z).mpr ⟨h, hEq⟩)
  · exact fun z h =>
      hEmitted.open_mem z ((hOpen' z).mp h).1

/- A path is cut off, which is marked at the start. -/
theorem Emitted.cutOff
    (hEmitted :
      Emitted backRefs start prevNode depth roots openEnds
        cuts s)
    (hMem : start ∈ s.tags)
    (hNotRoot : y ≠ rootTag) :
    Emitted backRefs start prevNode depth roots openEnds
      (cuts ++ [y])
      ⟨s.nodesToPathNum,
        insertTruncatedReferenceInfo start y (depth y)
          s.tagToInfos⟩ := by
  have hInsert :
      insertTruncatedReferenceInfo start y (depth y)
          s.tagToInfos =
        appendInfos start [truncation depth y]
          s.tagToInfos := rfl
  constructor
  · exact hEmitted.nodup
  · intro t
    change t ∈ s.tags ↔
      appendInfos start _ s.tagToInfos t ≠ none
    by_cases hEq : t = start
    · rw [hEq, appendInfos_self]
      simp [hMem]
    · rw [appendInfos_of_ne _ s.tagToInfos hEq]
      exact hEmitted.keys t
  · exact hEmitted.discovered
  · intro q z hZ
    rw [hInsert, linkCount_append]
    have hCount :
        [truncation depth y].countP (fun info =>
          info.tag == z &&
            info.kind != .memoryAgentTruncate) = 0 := by
      simp [truncation]
    rw [hCount, ite_self, Nat.add_zero]
    exact hEmitted.links q z hZ
  · exact hEmitted.closed
  · exact hEmitted.roots_mem
  · exact hEmitted.open_mem
  · intro t
    rw [hInsert, shownRootInfos_append]
    have hNone :
        [truncation depth y].filter
          (fun info => info.tag == rootTag) = [] := by
      simp [truncation, hNotRoot]
    rw [hNone, ite_self, List.append_nil]
    exact hEmitted.rootInfos t
  · intro t
    rw [hInsert, truncations_append]
    have hOne :
        [truncation depth y].filter (fun info =>
          info.kind == .memoryAgentTruncate) =
          [truncation depth y] := by
      simp [truncation]
    rw [hOne]
    have hOld := hEmitted.truncated t
    rw [hOld]
    by_cases hEq : t = start
    · simp [hEq]
    · simp [hEq]
  · exact hEmitted.below

/- The tags of a path, from its root down to `y`. -/
structure PathTo
    (prevNode : jlong → Option jlong)
    (depth : jlong → Nat)
    (r : jlong)
    (path : List jlong)
    (y : jlong) : Prop where
  head : path.head? = some r
  last : path.getLast? = some y
  chain : path.IsChain (fun a b => prevNode a = some b)
  onChain : ∀ z ∈ path, OnChain prevNode r z
  descends : ∀ z ∈ path, depth y ≤ depth z
  length : path.length + depth y = depth r + 1

theorem PathTo.refl
    (prevNode : jlong → Option jlong)
    (depth : jlong → Nat)
    (r : jlong) :
    PathTo prevNode depth r [r] r := by
  refine ⟨rfl, rfl, List.isChain_singleton r, ?_, ?_, ?_⟩
  · intro z hMem
    rw [List.mem_singleton.mp hMem]
    exact Relation.ReflTransGen.refl
  · intro z hMem
    rw [List.mem_singleton.mp hMem]
  · rw [List.length_singleton]
    omega

theorem PathTo.mem
    {r : jlong}
    {path : List jlong}
    (hPath : PathTo prevNode depth r path y) :
    y ∈ path :=
  List.mem_of_getLast? hPath.last

theorem PathTo.snoc
    {r : jlong}
    {path : List jlong}
    (hPath : PathTo prevNode depth r path y)
    (hPrev : prevNode y = some p)
    (hDepth : depth y = depth p + 1) :
    PathTo prevNode depth r (path ++ [p]) p := by
  refine ⟨?_, ?_, ?_, ?_, ?_, ?_⟩
  · rw [List.head?_append, hPath.head]
    rfl
  · exact List.getLast?_concat
  · refine List.isChain_append.mpr
      ⟨hPath.chain, List.isChain_singleton p, ?_⟩
    intro a hA b hB
    rw [hPath.last] at hA
    rw [← Option.some.inj hA, ← Option.some.inj hB]
    exact hPrev
  · intro z hMem
    rcases List.mem_append.mp hMem with hOld | hNew
    · exact hPath.onChain z hOld
    · rw [List.mem_singleton.mp hNew]
      exact (hPath.onChain y hPath.mem).tail hPrev
  · intro z hMem
    rcases List.mem_append.mp hMem with hOld | hNew
    · have hLe := hPath.descends z hOld
      omega
    · rw [List.mem_singleton.mp hNew]
  · have hLength := hPath.length
    rw [List.length_append, List.length_singleton]
    omega

/-
  What the inner loop makes of the path of a new root: the
  path is complete, or cut off at the limit.  A first path
  that is just complete at the limit is cut off as well.
-/
inductive Walked
    (backRefs : jlong → List ReferenceInfo)
    (start : jlong)
    (prevNode : jlong → Option jlong)
    (depth : jlong → Nat)
    (limit : Nat)
    (roots cuts : List jlong)
    (r : jlong)
    (s : Paths) : Paths → Prop
  | complete {s' : Paths} {path : List jlong} {y : jlong} :
      PathTo prevNode depth r path y →
        s'.tags = s.tags ++ path →
          s'.tags.length < limit → start ∈ s'.tags →
            Emitted backRefs start prevNode depth
                (roots ++ [r]) cuts cuts s' →
              Walked backRefs start prevNode depth limit
                roots cuts r s s'
  | cut {s' : Paths} {path : List jlong} {y : jlong} :
      PathTo prevNode depth r path y →
        s'.tags =
            s.tags ++ path ++
              (if roots = [] then [start] else []) →
          y ≠ start →
            (s.tags ++ path).length =
                max limit (s.tags.length + 1) →
              start ∈ s'.tags →
                Emitted backRefs start prevNode depth
                    (roots ++ [r]) (cuts ++ [y])
                    (cuts ++ [y]) s' →
                  Walked backRefs start prevNode depth limit
                    roots cuts r s s'
  | slip {s' : Paths} {path : List jlong} :
      roots = [] → PathTo prevNode depth r path start →
        s'.tags = path ++ [start] →
          path.length = max limit 1 → path.Nodup →
            Walked backRefs start prevNode depth limit roots
              cuts r s s'

/- While the path of the root `r` is walked. -/
structure OnPath
    (backRefs : jlong → List ReferenceInfo)
    (start : jlong)
    (prevNode : jlong → Option jlong)
    (depth : jlong → Nat)
    (limit : Nat)
    (roots cuts : List jlong)
    (r : jlong)
    (base : List jlong)
    (y : jlong)
    (t : Paths) : Prop where
  emitted :
    Emitted backRefs start prevNode depth (roots ++ [r])
      (cuts ++ [y]) cuts t
  not_cut : y ∉ cuts
  path :
    ∃ path, PathTo prevNode depth r path y ∧
      t.tags = base ++ path
  short : t.tags.length ≤ max limit (base.length + 1)

theorem Paths.length_tags (s : Paths) :
    s.tags.length = s.nodesToPathNum.length :=
  List.length_map _

/- A step of the inner loop to a new tag. -/
theorem OnPath.step
    (hTree : PrevTree backRefs start prevNode depth)
    (hStart : start ≠ rootTag)
    (hKinds : Untruncated backRefs prevNode)
    {limit cnt : Nat}
    {r : jlong}
    {base : List jlong}
    {info : ReferenceInfo}
    (hPath :
      OnPath backRefs start prevNode depth limit roots cuts r
        base y s)
    (hBelow : s.nodesToPathNum.length < limit)
    (hNe : y ≠ start)
    (hPrev : prevNode y = some p)
    (hInfo : info ∈ backRefs p)
    (hTag : info.tag = y)
    (hNew : s.tagToInfos p = none) :
    OnPath backRefs start prevNode depth limit roots cuts r
      base p
      ⟨s.nodesToPathNum ++ [(p, cnt)],
        appendInfos p [info] s.tagToInfos⟩ := by
  have hDepth := (hTree.step y p hNe hPrev).2
  have hEmitted := hPath.emitted
  have hNotMem : p ∉ s.tags :=
    fun hMem => (hEmitted.keys p).mp hMem hNew
  rcases hPath.path with ⟨path, hTo, hTags⟩
  have hOpen : y ∈ cuts ++ [y] := by simp
  have hMemY := hEmitted.open_mem y hOpen
  have hNeP : p ≠ y := by
    intro hEq
    rw [hEq] at hNotMem
    exact hNotMem hMemY
  have hLower : depth p < depth r := by
    have hLength := hTo.length
    have hPos := List.length_pos_of_mem hTo.mem
    omega
  have hNotRoot : p ∉ roots ++ [r] :=
    fun hMem => hNotMem (hEmitted.roots_mem p hMem)
  -- The tag is emitted, and then linked to the last one.
  have hEmit :=
    hEmitted.emit hKinds hNotMem (hTree.total y p hPrev) cnt
      (roots ++ [r]) []
      (by
        intro z
        constructor
        · exact Or.inl
        · rintro (hOld | ⟨_, hMem⟩)
          · exact hOld
          · exact absurd hMem hNotRoot)
      (Or.inr ⟨r, by simp, (hTo.onChain y hTo.mem).tail hPrev,
        hLower⟩)
      (by rw [if_neg hNotRoot])
  have hLink :=
    hEmit.link hKinds
      (List.mem_append_left [p] hOpen) hNe
      (hTree.ne_rootTag hStart
        (hEmitted.discovered y hMemY)) hPrev
      (by simp [Paths.tags]) hInfo hTag (cuts ++ [p])
      (by
        intro z
        simp only [List.mem_append, List.mem_singleton]
        constructor
        · rintro (hCut | hEq)
          · refine ⟨Or.inl (Or.inl hCut), ?_⟩
            intro hEq
            rw [hEq] at hCut
            exact hPath.not_cut hCut
          · exact ⟨Or.inr hEq, hEq ▸ hNeP⟩
        · rintro ⟨(hCut | hEq) | hEq, hNeZ⟩
          · exact Or.inl hCut
          · exact absurd hEq hNeZ
          · exact Or.inr hEq)
  rw [appendInfos_appendInfos, List.nil_append] at hLink
  have hTagsNew :
      (⟨s.nodesToPathNum ++ [(p, cnt)],
        appendInfos p [info] s.tagToInfos⟩ : Paths).tags =
        s.tags ++ [p] := by
    simp [Paths.tags]
  refine ⟨hLink, ?_, ⟨path ++ [p], hTo.snoc hPrev hDepth, ?_⟩,
    ?_⟩
  · exact fun hCut => hNotMem
      (hEmitted.open_mem p (List.mem_append_left [y] hCut))
  · rw [hTagsNew, hTags, List.append_assoc]
  · rw [hTagsNew, List.length_append, List.length_singleton,
      s.length_tags]
    omega

/- An open end `y` that is not a cut closes. -/
theorem mem_cuts_iff
    (hNot : y ∉ cuts) :
    ∀ z, z ∈ cuts ↔ z ∈ cuts ++ [y] ∧ z ≠ y := by
  intro z
  rw [List.mem_append, List.mem_singleton]
  constructor
  · intro hCut
    refine ⟨Or.inl hCut, ?_⟩
    intro hEq
    rw [hEq] at hCut
    exact hNot hCut
  · rintro ⟨hCut | hEq, hNe⟩
    · exact hCut
    · exact absurd hEq hNe

/- The first path is cut off, and the start is added. -/
theorem OnPath.limit_first
    (hTree : PrevTree backRefs start prevNode depth)
    (hZero : depth start = 0)
    (hStart : start ≠ rootTag)
    (hKinds : Untruncated backRefs prevNode)
    {limit : Nat}
    {r : jlong}
    {t : Paths}
    {path : List jlong}
    (hPath :
      OnPath backRefs start prevNode depth limit roots cuts r
        s.tags y t)
    (hNil : roots = [])
    (hNone : s.tags = [])
    (hTo : PathTo prevNode depth r path y)
    (hTags : t.tags = path)
    (hLength :
      (s.tags ++ path).length =
        max limit (s.tags.length + 1))
    (hNe : y ≠ start) :
    Walked backRefs start prevNode depth limit roots cuts r s
      ⟨t.nodesToPathNum ++ [(start, 1)],
        insertTruncatedReferenceInfo start y (depth y)
          t.tagToInfos⟩ := by
  have hEmitted := hPath.emitted
  have hLast : y ∈ path := hTo.mem
  have hPrev :=
    hEmitted.discovered y
      (hEmitted.open_mem y (by simp : y ∈ cuts ++ [y]))
  have hPos := hTree.depth_pos hPrev hNe
  have hNotMem : start ∉ t.tags := by
    intro hMem
    rw [hTags] at hMem
    have hLe := hTo.descends start hMem
    omega
  have hNotRoots : start ∉ roots ++ [r] :=
    fun hMem => hNotMem (hEmitted.roots_mem start hMem)
  have hLe : depth y ≤ depth r := by
    have hSum := hTo.length
    have hPathPos := List.length_pos_of_mem hLast
    omega
  have hEmit :=
    hEmitted.emit hKinds hNotMem
      (by rw [hTree.start_prev]; exact fun h => by cases h)
      1 (roots ++ [r]) []
      (by
        intro z
        constructor
        · exact Or.inl
        · rintro (hOld | ⟨_, hMem⟩)
          · exact hOld
          · exact absurd hMem hNotRoots)
      (Or.inr ⟨r, by simp,
        (hTo.onChain y hLast).trans
          (hTree.onChain_start hPrev),
        by omega⟩)
      (by rw [if_neg hNotRoots])
  have hClose :=
    hEmit.closeStart hTree.start_prev (cuts ++ [y])
      (mem_cuts_iff (fun hMem =>
        hNotMem (hEmitted.open_mem start hMem)))
  have hCut :=
    hClose.cutOff (by simp [Paths.tags])
      (hTree.ne_rootTag hStart hPrev)
  have hInsert :
      insertTruncatedReferenceInfo start y (depth y)
          (appendInfos start [] t.tagToInfos) =
        insertTruncatedReferenceInfo start y (depth y)
          t.tagToInfos :=
    appendInfos_appendInfos _ _ _ _
  rw [hInsert] at hCut
  have hTagsNew :
      (⟨t.nodesToPathNum ++ [(start, 1)],
        insertTruncatedReferenceInfo start y (depth y)
          t.tagToInfos⟩ : Paths).tags =
        path ++ [start] := by
    rw [← hTags]
    simp [Paths.tags]
  refine Walked.cut hTo ?_ hNe hLength ?_ hCut
  · rw [hTagsNew, hNone, if_pos hNil, List.nil_append]
  · rw [hTagsNew]
    simp

/- The end of the inner loop at the limit. -/
theorem OnPath.limit
    (hTree : PrevTree backRefs start prevNode depth)
    (hZero : depth start = 0)
    (hStart : start ≠ rootTag)
    (hKinds : Untruncated backRefs prevNode)
    {limit : Nat}
    {r : jlong}
    {t : Paths}
    (hBase :
      (roots = [] ∧ s.tags = []) ∨
        (roots ≠ [] ∧ start ∈ s.tags))
    (hPath :
      OnPath backRefs start prevNode depth limit roots cuts r
        s.tags y t)
    (hLimit : limit ≤ t.nodesToPathNum.length) :
    Walked backRefs start prevNode depth limit roots cuts r s
      ⟨if roots.length + 1 = 1 then
          t.nodesToPathNum ++ [(start, 1)]
        else t.nodesToPathNum,
        insertTruncatedReferenceInfo start y (depth y)
          t.tagToInfos⟩ := by
  rcases hPath.path with ⟨path, hTo, hTags⟩
  have hEmitted := hPath.emitted
  have hLast : y ∈ path := hTo.mem
  have hLength :
      (s.tags ++ path).length =
        max limit (s.tags.length + 1) := by
    have hShort := hPath.short
    have hPos := List.length_pos_of_mem hLast
    rw [← t.length_tags] at hLimit
    rw [hTags] at hShort hLimit
    rw [List.length_append] at *
    omega
  rcases hBase with ⟨hNil, hNone⟩ | ⟨hSome, hMem⟩
  · rw [if_pos (by rw [hNil]; rfl)]
    have hPathTags : t.tags = path := by
      rw [hTags, hNone, List.nil_append]
    by_cases hEq : y = start
    · -- The first path is complete at the limit.
      rw [hEq] at hTo
      refine Walked.slip hNil hTo ?_ ?_ ?_
      · rw [← hPathTags]
        simp [Paths.tags]
      · rw [hNone] at hLength
        exact hLength
      · rw [← hPathTags]
        exact hEmitted.nodup
    · exact hPath.limit_first hTree hZero hStart hKinds hNil
        hNone hTo hPathTags hLength hEq
  · have hNotNil : roots.length ≠ 0 :=
      fun hZ => hSome (List.length_eq_zero_iff.mp hZ)
    rw [if_neg (by omega)]
    have hNodup := hEmitted.nodup
    rw [hTags] at hNodup
    have hNe : y ≠ start := by
      intro hEq
      rw [hEq] at hLast
      exact (List.nodup_append.mp hNodup).2.2 start hMem
        start hLast rfl
    have hMemStart : start ∈ t.tags := by
      rw [hTags]
      exact List.mem_append_left path hMem
    have hPrev :=
      hEmitted.discovered y
        (hEmitted.open_mem y (by simp : y ∈ cuts ++ [y]))
    refine Walked.cut hTo ?_ hNe hLength hMemStart
      (hEmitted.cutOff hMemStart
        (hTree.ne_rootTag hStart hPrev))
    rw [if_neg hSome, List.append_nil]
    exact hTags

/- The end of the inner loop, wherever it is. -/
theorem OnPath.ended
    (hTree : PrevTree backRefs start prevNode depth)
    (hZero : depth start = 0)
    (hStart : start ≠ rootTag)
    (hKinds : Untruncated backRefs prevNode)
    {limit : Nat}
    {r : jlong}
    {t s' : Paths}
    (hBase :
      (roots = [] ∧ s.tags = []) ∨
        (roots ≠ [] ∧ start ∈ s.tags))
    (hPath :
      OnPath backRefs start prevNode depth limit roots cuts r
        s.tags y t)
    (hEnded :
      Ended backRefs prevNode start depth limit
        (roots.length + 1) y t s') :
    Walked backRefs start prevNode depth limit roots cuts r s
      s' := by
  have hEmitted := hPath.emitted
  have hMemY :=
    hEmitted.open_mem y (by simp : y ∈ cuts ++ [y])
  cases hEnded with
  | limit hLimit =>
      exact hPath.limit hTree hZero hStart hKinds hBase hLimit
  | start hBelow hEq =>
      rcases hPath.path with ⟨path, hTo, hTags⟩
      rw [← t.length_tags] at hBelow
      have hNot := hPath.not_cut
      rw [hEq] at hEmitted hNot hMemY
      exact Walked.complete hTo hTags hBelow hMemY
        (hEmitted.closeStart hTree.start_prev cuts
          (mem_cuts_iff hNot))
  | @join prevTag info hBelow hNe hPrev hInfo hTag hKnown =>
      rcases hPath.path with ⟨path, hTo, hTags⟩
      rw [← t.length_tags] at hBelow
      have hMemP : prevTag ∈ t.tags :=
        (hEmitted.keys prevTag).mpr hKnown
      have hMemStart : start ∈ t.tags := by
        rcases hBase with ⟨_, hNone⟩ | ⟨_, hMem⟩
        · -- A first path has no earlier one to join.
          rw [hTags, hNone, List.nil_append] at hMemP
          have hLe := hTo.descends prevTag hMemP
          have hDepth := (hTree.step y prevTag hNe hPrev).2
          omega
        · rw [hTags]
          exact List.mem_append_left path hMem
      exact Walked.complete hTo hTags hBelow hMemStart
        (hEmitted.link hKinds (by simp) hNe
          (hTree.ne_rootTag hStart
            (hEmitted.discovered y hMemY))
          hPrev hMemP hInfo hTag cuts
          (mem_cuts_iff hPath.not_cut))

/- The path of a new root. -/
theorem Emitted.walk
    (hTree : PrevTree backRefs start prevNode depth)
    (hZero : depth start = 0)
    (hStart : start ≠ rootTag)
    (hKinds : Untruncated backRefs prevNode)
    (limit : Nat)
    {r : jlong}
    (hEmitted :
      Emitted backRefs start prevNode depth roots cuts cuts
        s)
    (hBase :
      (roots = [] ∧ s.tags = []) ∨
        (roots ≠ [] ∧ start ∈ s.tags))
    (hNew : r ∉ s.tags)
    (hPrev : prevNode r ≠ none) :
    ∃ s',
      (∀ fuel, depth r < fuel →
        walkPath backRefs prevNode start limit
            (roots.length + 1) fuel r
            ⟨s.nodesToPathNum ++ [(r, roots.length)],
              insertRootInfos backRefs r s.tagToInfos⟩ =
          some s') ∧
      Walked backRefs start prevNode depth limit roots cuts r
        s s' := by
  have hNotCut : r ∉ cuts :=
    fun hMem => hNew (hEmitted.open_mem r hMem)
  have hTags :
      (⟨s.nodesToPathNum ++ [(r, roots.length)],
        insertRootInfos backRefs r s.tagToInfos⟩ :
          Paths).tags =
        s.tags ++ [r] := by
    simp [Paths.tags]
  have hFirst :
      OnPath backRefs start prevNode depth limit roots cuts r
        s.tags r
        ⟨s.nodesToPathNum ++ [(r, roots.length)],
          insertRootInfos backRefs r s.tagToInfos⟩ := by
    refine ⟨?_, hNotCut, ⟨[r], PathTo.refl _ _ _, hTags⟩,
      ?_⟩
    · apply hEmitted.emit hKinds hNew hPrev roots.length
        (roots ++ [r])
      · intro z
        simp only [List.mem_append, List.mem_singleton]
        constructor
        · rintro (hOld | hEq)
          · exact Or.inl hOld
          · exact Or.inr ⟨hEq, Or.inr trivial⟩
        · rintro (hOld | ⟨hEq, _⟩)
          · exact Or.inl hOld
          · exact Or.inr hEq
      · exact Or.inl (by simp)
      · rw [if_pos (by simp)]
    · rw [hTags, List.length_append, List.length_singleton]
      omega
  rcases walkPath_ended hTree hZero limit (roots.length + 1)
      (OnPath backRefs start prevNode depth limit roots cuts r
        s.tags)
      (fun _ _ _ _ hPath hBelow hNe hPrevY hInfo hTag hNone =>
        hPath.step hTree hStart hKinds hBelow hNe hPrevY
          hInfo hTag hNone)
      hPrev hFirst with
    ⟨s', hWalk, y, t, _, hPath, hEnded⟩
  exact ⟨s', hWalk,
    hPath.ended hTree hZero hStart hKinds hBase hEnded⟩

end Emit

end Roots

end MemoryAgent
