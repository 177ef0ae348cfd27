import MemoryAgent.Roots.ClosestGcRoots

/-
  The part of the paths to the found roots that is shown:
  its tags, and the back references that lead along it.

  Key definitions include:
    * `Roots.Paths`
    * `Roots.walkPath`
    * `Roots.createPaths`
    * `Roots.Assembled`

  Main results:
    * `Roots.walkPath_spec`
    * `Roots.createPaths_assembled`
-/

------------------------------------------------------------
-- Assembling Paths
------------------------------------------------------------

namespace MemoryAgent

namespace Roots

open ClosestGcRoots BreadthFirst

/- `tagToInfos` -/
abbrev Infos :=
  jlong → Option (List ReferenceInfo)

/- Append to the vector of a tag, which may be new. -/
def appendInfos
    (tag : jlong)
    (infos : List ReferenceInfo)
    (tagToInfos : Infos) : Infos :=
  Function.update tagToInfos tag
    (some ((tagToInfos tag).getD [] ++ infos))

def getReferrerInfo
    (backRefs : jlong → List ReferenceInfo)
    (referee referrer : jlong) : Option ReferenceInfo :=
  (backRefs referee).find? (fun info => info.tag == referrer)

def insertRootInfos
    (backRefs : jlong → List ReferenceInfo)
    (referee : jlong)
    (tagToInfos : Infos) : Infos :=
  appendInfos referee
    ((backRefs referee).filter
      (fun info => info.tag == rootTag))
    tagToInfos

/-
  Whether the referee was there before, and the new map.  The
  agent crashes on a missing reference.
-/
def insertInfos
    (backRefs : jlong → List ReferenceInfo)
    (referee referrer : jlong)
    (tagToInfos : Infos) : Option (Bool × Infos) := do
  let info ← getReferrerInfo backRefs referee referrer
  some ((tagToInfos referee).isSome,
    appendInfos referee [info] tagToInfos)

def insertTruncatedReferenceInfo
    (start referrer : jlong)
    (lengthToStart : Int)
    (tagToInfos : Infos) : Infos :=
  appendInfos start
    [⟨referrer, .memoryAgentTruncate, .index lengthToStart⟩]
    tagToInfos

/- The length that `truncatePath` counts. -/
def lengthToStart
    (prevNode : jlong → Option jlong) :
    Nat → jlong → Option Int
| 0, _ => none
| fuel + 1, tag => do
    let prevTag ← prevNode tag
    if prevTag = tag then
      some 0
    else
      let length ← lengthToStart prevNode fuel prevTag
      some (length + 1)

def truncatePath
    (prevNode : jlong → Option jlong)
    (fuel : Nat)
    (start tag : jlong)
    (tagToInfos : Infos) : Option Infos := do
  let length ← lengthToStart prevNode fuel tag
  some (insertTruncatedReferenceInfo start tag length
    tagToInfos)

/- The local variables of the loop over the found roots. -/
structure Paths where
  nodesToPathNum : List (jlong × Nat)
  tagToInfos : Infos

/- `objectsNumber - roots.size()` -/
def pathsLimit
    (objectsNumber : Int32)
    (rootsSize : Nat) : Nat :=
  ((objectsNumber.toInt - rootsSize) % 2 ^ 64).toNat

/- The inner loop, from `tag` towards the start. -/
def walkPath
    (backRefs : jlong → List ReferenceInfo)
    (prevNode : jlong → Option jlong)
    (start : jlong)
    (limit cnt : Nat) :
    Nat → jlong → Paths → Option Paths
| 0, _, _ => none
| fuel + 1, tag, s =>
    if limit ≤ s.nodesToPathNum.length then do
      let nodes :=
        if cnt = 1 then s.nodesToPathNum ++ [(start, 1)]
        else s.nodesToPathNum
      let infos ←
        truncatePath prevNode (fuel + 1) start tag
          s.tagToInfos
      some ⟨nodes, infos⟩
    else do
      let prevTag ← prevNode tag
      if prevTag = tag then
        some s
      else
        let (known, infos) ←
          insertInfos backRefs prevTag tag s.tagToInfos
        if known = true then
          some { s with tagToInfos := infos }
        else
          walkPath backRefs prevNode start limit cnt fuel
            prevTag
            ⟨s.nodesToPathNum ++ [(prevTag, cnt)], infos⟩

/- The outer loop over the found roots. -/
def walkPaths
    (backRefs : jlong → List ReferenceInfo)
    (prevNode : jlong → Option jlong)
    (start : jlong)
    (objectsNumber : Int32)
    (limit fuel : Nat) :
    List jlong → Nat → Paths → Option Paths
| [], _, s => some s
| tag :: roots, cnt, s =>
    if s.nodesToPathNum.length < toSize objectsNumber then do
      let s ←
        walkPath backRefs prevNode start limit (cnt + 1) fuel
          tag
          ⟨s.nodesToPathNum ++ [(tag, cnt)],
            insertRootInfos backRefs tag s.tagToInfos⟩
      walkPaths backRefs prevNode start objectsNumber limit
        fuel roots (cnt + 1) s
    else
      some s

def createPaths
    (backRefs : jlong → List ReferenceInfo)
    (prevNode : jlong → Option jlong)
    (start : jlong)
    (objectsNumber : Int32)
    (fuel : Nat)
    (roots : List jlong) : Option Paths :=
  walkPaths backRefs prevNode start objectsNumber
    (pathsLimit objectsNumber roots.length) fuel roots 0
    ⟨[], fun _ => none⟩

------------------------------------------------------------
-- Chains of References
------------------------------------------------------------

/- The tags that `prevNode` leads to `start`, by distance. -/
structure PrevTree
    (backRefs : jlong → List ReferenceInfo)
    (start : jlong)
    (prevNode : jlong → Option jlong)
    (depth : jlong → Nat) : Prop where
  start_prev : prevNode start = some start
  step :
    ∀ a b, a ≠ start → prevNode a = some b →
      BackReference backRefs b a ∧ depth a = depth b + 1
  total :
    ∀ a b, prevNode a = some b → prevNode b ≠ none

/- What is shown for `a` names the tag `b`. -/
def Leads
    (tagToInfos : Infos)
    (a b : jlong) : Prop :=
  b ≠ rootTag ∧
    ∃ infos, tagToInfos a = some infos ∧
      ∃ info ∈ infos, info.tag = b

def HasRootInfo
    (tagToInfos : Infos)
    (a : jlong) : Prop :=
  ∃ infos, tagToInfos a = some infos ∧
    ∃ info ∈ infos, info.tag = rootTag

/- A chain of what is shown leads to a root. -/
def LeadsToRoot
    (tagToInfos : Infos)
    (a : jlong) : Prop :=
  ∃ b, Relation.ReflTransGen (Leads tagToInfos) a b ∧
    HasRootInfo tagToInfos b

section Append

variable {tagToInfos : Infos}
variable {tag a b : jlong}
variable {infos new : List ReferenceInfo}

theorem appendInfos_self
    (tag : jlong)
    (new : List ReferenceInfo)
    (tagToInfos : Infos) :
    appendInfos tag new tagToInfos tag =
      some ((tagToInfos tag).getD [] ++ new) :=
  Function.update_self _ _ _

theorem appendInfos_of_ne
    (new : List ReferenceInfo)
    (tagToInfos : Infos)
    (hNe : a ≠ tag) :
    appendInfos tag new tagToInfos a = tagToInfos a :=
  Function.update_of_ne hNe _ _

/- What was shown stays shown. -/
theorem exists_appendInfos
    (tag : jlong)
    (new : List ReferenceInfo)
    (hInfos : tagToInfos a = some infos) :
    ∃ more,
      appendInfos tag new tagToInfos a =
        some (infos ++ more) := by
  by_cases hEq : a = tag
  · subst hEq
    refine ⟨new, ?_⟩
    rw [appendInfos_self, hInfos]
    rfl
  · refine ⟨[], ?_⟩
    rw [appendInfos_of_ne new tagToInfos hEq, hInfos,
      List.append_nil]

theorem Leads.append
    (tag : jlong)
    (new : List ReferenceInfo)
    (hLeads : Leads tagToInfos a b) :
    Leads (appendInfos tag new tagToInfos) a b := by
  rcases hLeads with ⟨hNe, infos, hInfos, info, hMem, hTag⟩
  rcases exists_appendInfos tag new hInfos with
    ⟨more, hMore⟩
  exact ⟨hNe, _, hMore, info,
    List.mem_append_left more hMem, hTag⟩

theorem leads_append
    (tag : jlong)
    (new : List ReferenceInfo)
    (hChain : Relation.ReflTransGen (Leads tagToInfos) a b) :
    Relation.ReflTransGen
      (Leads (appendInfos tag new tagToInfos)) a b :=
  Relation.ReflTransGen.mono
    (fun _ _ (hLeads : Leads tagToInfos _ _) =>
      hLeads.append tag new) _ _ hChain

theorem HasRootInfo.append
    (tag : jlong)
    (new : List ReferenceInfo)
    (hRoot : HasRootInfo tagToInfos a) :
    HasRootInfo (appendInfos tag new tagToInfos) a := by
  rcases hRoot with ⟨infos, hInfos, info, hMem, hTag⟩
  rcases exists_appendInfos tag new hInfos with
    ⟨more, hMore⟩
  exact ⟨_, hMore, info, List.mem_append_left more hMem,
    hTag⟩

theorem LeadsToRoot.append
    (tag : jlong)
    (new : List ReferenceInfo)
    (hRoot : LeadsToRoot tagToInfos a) :
    LeadsToRoot (appendInfos tag new tagToInfos) a := by
  rcases hRoot with ⟨b, hChain, hInfo⟩
  exact ⟨b, leads_append tag new hChain,
    hInfo.append tag new⟩

/- A new reference is shown. -/
theorem Leads.of_new
    (tag : jlong)
    (tagToInfos : Infos)
    {info : ReferenceInfo}
    (hMem : info ∈ new)
    (hNe : info.tag ≠ rootTag) :
    Leads (appendInfos tag new tagToInfos) tag info.tag :=
  ⟨hNe, _, appendInfos_self tag new tagToInfos, info,
    List.mem_append_right _ hMem, rfl⟩

end Append

------------------------------------------------------------
-- What Is Shown
------------------------------------------------------------

def Paths.tags (s : Paths) : List jlong :=
  s.nodesToPathNum.map Prod.fst

/- A reference that may be shown for the tag `t`. -/
def Shown
    (backRefs : jlong → List ReferenceInfo)
    (start : jlong)
    (tags : List jlong)
    (t : jlong)
    (info : ReferenceInfo) : Prop :=
  (info ∈ backRefs t ∧
      (info.tag = rootTag ∨ info.tag ∈ tags)) ∨
    (t = start ∧ info.kind = .memoryAgentTruncate ∧
      info.tag ∈ tags)

/-
  The tags listed are those with references shown for them,
  which are recorded ones or mark a truncated path, and from
  each of them a chain leads to a root.
-/
structure Recorded
    (backRefs : jlong → List ReferenceInfo)
    (start : jlong)
    (prevNode : jlong → Option jlong)
    (s : Paths) : Prop where
  keys : ∀ t, t ∈ s.tags ↔ s.tagToInfos t ≠ none
  shown :
    ∀ t infos, s.tagToInfos t = some infos →
      ∀ info ∈ infos, Shown backRefs start s.tags t info
  rooted : ∀ t ∈ s.tags, LeadsToRoot s.tagToInfos t
  discovered : ∀ t ∈ s.tags, prevNode t ≠ none

/- Besides, every tag lies on a chain from the start. -/
structure Assembled
    (backRefs : jlong → List ReferenceInfo)
    (start : jlong)
    (prevNode : jlong → Option jlong)
    (s : Paths) : Prop where
  recorded : Recorded backRefs start prevNode s
  fromStart :
    ∀ t ∈ s.tags,
      start ∈ s.tags ∧
        Relation.ReflTransGen (Leads s.tagToInfos) start t

/-
  While a path is walked up to `tag`, its tags hang below
  `tag`, and the tags of earlier paths below the start.
-/
structure Walking
    (backRefs : jlong → List ReferenceInfo)
    (start : jlong)
    (prevNode : jlong → Option jlong)
    (depth : jlong → Nat)
    (cnt : Nat)
    (tag : jlong)
    (s : Paths) : Prop where
  recorded : Recorded backRefs start prevNode s
  mem : tag ∈ s.tags
  hang :
    ∀ t ∈ s.tags,
      (start ∈ s.tags ∧
          Relation.ReflTransGen (Leads s.tagToInfos) start
            t) ∨
        (depth tag ≤ depth t ∧
          Relation.ReflTransGen (Leads s.tagToInfos) tag t)
  later : cnt = 1 ∨ start ∈ s.tags

section Walk

variable {backRefs : jlong → List ReferenceInfo}
variable {start : jlong}
variable {prevNode : jlong → Option jlong}
variable {depth : jlong → Nat}
variable {s : Paths}
variable {tag : jlong}

theorem Shown.mono
    {tags tags' : List jlong}
    {t : jlong}
    {info : ReferenceInfo}
    (hSubset : ∀ x ∈ tags, x ∈ tags')
    (hShown : Shown backRefs start tags t info) :
    Shown backRefs start tags' t info := by
  rcases hShown with ⟨hMem, hTag⟩ | ⟨hEq, hKind, hTag⟩
  · exact Or.inl ⟨hMem, hTag.imp_right (hSubset _)⟩
  · exact Or.inr ⟨hEq, hKind, hSubset _ hTag⟩

/- Showing more references for a tag, which may be new. -/
theorem Recorded.append
    (hRecorded : Recorded backRefs start prevNode s)
    {nodes : List (jlong × Nat)}
    {new : List ReferenceInfo}
    (hNodes :
      ∀ t, t ∈ nodes.map Prod.fst ↔ t ∈ s.tags ∨ t = tag)
    (hNew :
      ∀ info ∈ new,
        Shown backRefs start (nodes.map Prod.fst) tag info)
    (hRoot :
      LeadsToRoot (appendInfos tag new s.tagToInfos) tag)
    (hPrev : prevNode tag ≠ none) :
    Recorded backRefs start prevNode
      ⟨nodes, appendInfos tag new s.tagToInfos⟩ := by
  have hSubset :
      ∀ x ∈ s.tags, x ∈ nodes.map Prod.fst :=
    fun x hMem => (hNodes x).mpr (Or.inl hMem)
  constructor
  · intro t
    change t ∈ nodes.map Prod.fst ↔
      appendInfos tag new s.tagToInfos t ≠ none
    rw [hNodes]
    by_cases hEq : t = tag
    · subst hEq
      rw [appendInfos_self]
      simp
    · rw [appendInfos_of_ne new s.tagToInfos hEq,
        ← hRecorded.keys t]
      simp [hEq]
  · intro t infos hInfos info hMem
    change appendInfos tag new s.tagToInfos t = some infos
      at hInfos
    by_cases hEq : t = tag
    · subst hEq
      rw [appendInfos_self] at hInfos
      rw [← Option.some.inj hInfos] at hMem
      rcases List.mem_append.mp hMem with hOld | hAdded
      · cases hGet : s.tagToInfos t with
        | none =>
            rw [hGet] at hOld
            exact absurd hOld List.not_mem_nil
        | some old =>
            rw [hGet] at hOld
            exact (hRecorded.shown t old hGet info
              hOld).mono hSubset
      · exact hNew info hAdded
    · rw [appendInfos_of_ne new s.tagToInfos hEq] at hInfos
      exact (hRecorded.shown t infos hInfos info hMem).mono
        hSubset
  · intro t hMem
    rcases (hNodes t).mp hMem with hOld | hEq
    · exact (hRecorded.rooted t hOld).append tag new
    · rw [hEq]
      exact hRoot
  · intro t hMem
    rcases (hNodes t).mp hMem with hOld | hEq
    · exact hRecorded.discovered t hOld
    · rw [hEq]
      exact hPrev

/- Only the start is its own predecessor. -/
theorem PrevTree.eq_start
    (hTree : PrevTree backRefs start prevNode depth)
    (hSelf : prevNode tag = some tag) :
    tag = start := by
  by_contra hNe
  have hDepth := (hTree.step tag tag hNe hSelf).2
  omega

theorem PrevTree.ne_rootTag
    (hTree : PrevTree backRefs start prevNode depth)
    (hStart : start ≠ rootTag)
    (hPrev : prevNode tag ≠ none) :
    tag ≠ rootTag := by
  by_cases hEq : tag = start
  · rw [hEq]
    exact hStart
  · rcases Option.ne_none_iff_exists'.mp hPrev with
      ⟨b, hB⟩
    exact (hTree.step tag b hEq hB).1.1

theorem lengthToStart_spec
    (hTree : PrevTree backRefs start prevNode depth)
    (hPrev : prevNode tag ≠ none) :
    ∃ length, ∀ fuel, depth tag < fuel →
      lengthToStart prevNode fuel tag = some length := by
  generalize hDepth : depth tag = d
  induction d using Nat.strongRecOn generalizing tag with
  | ind d ih =>
      rcases Option.ne_none_iff_exists'.mp hPrev with
        ⟨b, hB⟩
      by_cases hEq : b = tag
      · refine ⟨0, ?_⟩
        intro fuel hFuel
        cases fuel with
        | zero => omega
        | succ fuel => simp [lengthToStart, hB, hEq]
      · have hNe : tag ≠ start := by
          intro hStart
          rw [hStart, hTree.start_prev] at hB
          rw [hStart] at hEq
          exact hEq (Option.some.inj hB).symm
        have hStep := (hTree.step tag b hNe hB).2
        rcases ih (depth b) (by omega)
            (hTree.total tag b hB) rfl with ⟨n, hN⟩
        refine ⟨n + 1, ?_⟩
        intro fuel hFuel
        cases fuel with
        | zero => omega
        | succ fuel =>
            simp [lengthToStart, hB, hEq,
              hN fuel (by omega)]

/- A path that is cut off still hangs below the start. -/
theorem Walking.truncate
    (hTree : PrevTree backRefs start prevNode depth)
    (hStart : start ≠ rootTag)
    {cnt : Nat}
    (hWalking :
      Walking backRefs start prevNode depth cnt tag s)
    (length : Int) :
    Assembled backRefs start prevNode
        ⟨if cnt = 1 then s.nodesToPathNum ++ [(start, 1)]
          else s.nodesToPathNum,
          insertTruncatedReferenceInfo start tag length
            s.tagToInfos⟩ ∧
      start ∈
        (if cnt = 1 then s.nodesToPathNum ++ [(start, 1)]
          else s.nodesToPathNum).map Prod.fst := by
  let nodes :=
    if cnt = 1 then s.nodesToPathNum ++ [(start, 1)]
    else s.nodesToPathNum
  have hNodes :
      ∀ t, t ∈ nodes.map Prod.fst ↔
        t ∈ s.tags ∨ t = start := by
    intro t
    by_cases hFirst : cnt = 1
    · simp [nodes, hFirst, Paths.tags]
    · have hMem :=
        hWalking.later.resolve_left hFirst
      simp only [nodes, if_neg hFirst]
      constructor
      · exact Or.inl
      · rintro (hOld | hEq)
        · exact hOld
        · rw [hEq]
          exact hMem
  have hPrev := hWalking.recorded.discovered tag hWalking.mem
  have hNe := hTree.ne_rootTag hStart hPrev
  have hStartMem : start ∈ nodes.map Prod.fst :=
    (hNodes start).mpr (Or.inr rfl)
  let new : List ReferenceInfo :=
    [⟨tag, .memoryAgentTruncate, .index length⟩]
  have hLeads :
      Leads (appendInfos start new s.tagToInfos) start tag :=
    Leads.of_new start s.tagToInfos
      (List.mem_singleton_self _) hNe
  have hRecorded :
      Recorded backRefs start prevNode
        ⟨nodes, appendInfos start new s.tagToInfos⟩ := by
    apply hWalking.recorded.append hNodes
    · intro info hMem
      rw [List.mem_singleton.mp hMem]
      exact Or.inr ⟨rfl, rfl,
        (hNodes tag).mpr (Or.inl hWalking.mem)⟩
    · rcases (hWalking.recorded.rooted tag
          hWalking.mem).append start new with
        ⟨b, hChain, hRoot⟩
      exact ⟨b, hChain.head hLeads, hRoot⟩
    · rw [hTree.start_prev]
      exact Option.some_ne_none start
  refine ⟨⟨hRecorded, ?_⟩, hStartMem⟩
  intro t hMem
  refine ⟨hStartMem, ?_⟩
  rcases (hNodes t).mp hMem with hOld | hEq
  · rcases hWalking.hang t hOld with
      ⟨_, hChain⟩ | ⟨_, hChain⟩
    · exact leads_append start new hChain
    · exact (leads_append start new hChain).head hLeads
  · rw [hEq]

theorem exists_getReferrerInfo
    {referee referrer : jlong}
    (hBack : BackReference backRefs referee referrer) :
    ∃ info,
      getReferrerInfo backRefs referee referrer =
          some info ∧
        info ∈ backRefs referee ∧ info.tag = referrer := by
  rcases hBack with ⟨_, other, hOther, hTag⟩
  cases hGet : getReferrerInfo backRefs referee referrer with
  | none =>
      have hNone := List.find?_eq_none.mp hGet other hOther
      simp [hTag] at hNone
  | some info =>
      have hFound := List.find?_some hGet
      exact ⟨info, rfl, List.mem_of_find?_eq_some hGet,
        by simpa using hFound⟩

section Steps

variable {cnt : Nat}
variable {prevTag : jlong}
variable {info : ReferenceInfo}

theorem Leads.of_single
    (tagToInfos : Infos)
    (hTag : info.tag = tag)
    (hNe : tag ≠ rootTag) :
    Leads (appendInfos prevTag [info] tagToInfos) prevTag
      tag := by
  rw [← hTag] at hNe ⊢
  exact Leads.of_new prevTag tagToInfos
    (List.mem_singleton_self info) hNe

/- A path that reached the start hangs below it. -/
theorem Walking.assembled
    (hWalking :
      Walking backRefs start prevNode depth cnt start s) :
    Assembled backRefs start prevNode s := by
  refine ⟨hWalking.recorded, ?_⟩
  intro t hMem
  rcases hWalking.hang t hMem with ⟨_, hChain⟩ | ⟨_, hChain⟩
  · exact ⟨hWalking.mem, hChain⟩
  · exact ⟨hWalking.mem, hChain⟩

variable
  (hWalking :
    Walking backRefs start prevNode depth cnt tag s)
variable (hInfo : info ∈ backRefs prevTag)
variable (hTag : info.tag = tag)
variable (hNe : tag ≠ rootTag)
variable (hPrev : prevNode prevTag ≠ none)

include hWalking hInfo hTag hNe hPrev

theorem Walking.append
    {nodes : List (jlong × Nat)}
    (hNodes :
      ∀ t, t ∈ nodes.map Prod.fst ↔
        t ∈ s.tags ∨ t = prevTag) :
    Recorded backRefs start prevNode
      ⟨nodes, appendInfos prevTag [info] s.tagToInfos⟩ := by
  apply hWalking.recorded.append hNodes
  · intro other hOther
    rw [List.mem_singleton.mp hOther]
    refine Or.inl ⟨hInfo, Or.inr ?_⟩
    rw [hTag]
    exact (hNodes tag).mpr (Or.inl hWalking.mem)
  · rcases (hWalking.recorded.rooted tag
        hWalking.mem).append prevTag [info] with
      ⟨b, hChain, hRoot⟩
    exact ⟨b,
      hChain.head (Leads.of_single s.tagToInfos hTag hNe),
      hRoot⟩
  · exact hPrev

/- The path goes on with a new tag. -/
theorem Walking.next
    (hDepth : depth prevTag ≤ depth tag) :
    Walking backRefs start prevNode depth cnt prevTag
      ⟨s.nodesToPathNum ++ [(prevTag, cnt)],
        appendInfos prevTag [info] s.tagToInfos⟩ := by
  let nodes := s.nodesToPathNum ++ [(prevTag, cnt)]
  have hNodes :
      ∀ t, t ∈ nodes.map Prod.fst ↔
        t ∈ s.tags ∨ t = prevTag := by
    intro t
    simp [nodes, Paths.tags]
  refine ⟨hWalking.append hInfo hTag hNe hPrev hNodes,
    (hNodes prevTag).mpr (Or.inr rfl), ?_, ?_⟩
  · intro t hMem
    rcases (hNodes t).mp hMem with hOld | hEq
    · rcases hWalking.hang t hOld with
        ⟨hStart, hChain⟩ | ⟨hLe, hChain⟩
      · exact Or.inl
          ⟨(hNodes start).mpr (Or.inl hStart),
            leads_append prevTag [info] hChain⟩
      · refine Or.inr ⟨hDepth.trans hLe, ?_⟩
        exact (leads_append prevTag [info] hChain).head
          (Leads.of_single s.tagToInfos hTag hNe)
    · rw [hEq]
      exact Or.inr
        ⟨le_refl _, Relation.ReflTransGen.refl⟩
  · exact hWalking.later.imp_right
      (fun hMem => (hNodes start).mpr (Or.inl hMem))

/- The rest of the path was shown before. -/
theorem Walking.join
    (hDepth : depth prevTag < depth tag)
    (hKnown : prevTag ∈ s.tags) :
    Assembled backRefs start prevNode
        ⟨s.nodesToPathNum,
          appendInfos prevTag [info] s.tagToInfos⟩ ∧
      start ∈ s.tags := by
  have hNodes :
      ∀ t, t ∈ s.nodesToPathNum.map Prod.fst ↔
        t ∈ s.tags ∨ t = prevTag := by
    intro t
    constructor
    · exact Or.inl
    · rintro (hOld | hEq)
      · exact hOld
      · rw [hEq]
        exact hKnown
  have hFromStart :
      start ∈ s.tags ∧
        Relation.ReflTransGen (Leads s.tagToInfos) start
          prevTag := by
    rcases hWalking.hang prevTag hKnown with
      hBelow | ⟨hLe, _⟩
    · exact hBelow
    · omega
  refine ⟨⟨hWalking.append hInfo hTag hNe hPrev hNodes, ?_⟩,
    hFromStart.1⟩
  intro t hMem
  refine ⟨hFromStart.1, ?_⟩
  have hToTag :=
    (leads_append prevTag [info] hFromStart.2).tail
      (Leads.of_single s.tagToInfos hTag hNe)
  rcases hWalking.hang t hMem with ⟨_, hChain⟩ | ⟨_, hChain⟩
  · exact leads_append prevTag [info] hChain
  · exact hToTag.trans (leads_append prevTag [info] hChain)

end Steps

/- The inner loop ends, with every tag below the start. -/
theorem walkPath_spec
    (hTree : PrevTree backRefs start prevNode depth)
    (hStart : start ≠ rootTag)
    (limit cnt : Nat)
    (hWalking :
      Walking backRefs start prevNode depth cnt tag s) :
    ∃ s',
      (∀ fuel, depth tag < fuel →
        walkPath backRefs prevNode start limit cnt fuel tag
          s = some s') ∧
      Assembled backRefs start prevNode s' ∧
      start ∈ s'.tags := by
  generalize hDepth : depth tag = d
  induction d using Nat.strongRecOn generalizing tag s with
  | ind d ih =>
      have hPrev :=
        hWalking.recorded.discovered tag hWalking.mem
      by_cases hLimit : limit ≤ s.nodesToPathNum.length
      · rcases lengthToStart_spec hTree hPrev with
          ⟨length, hLength⟩
        rcases hWalking.truncate hTree hStart length with
          ⟨hAssembled, hMem⟩
        refine ⟨_, ?_, hAssembled, hMem⟩
        intro fuel hFuel
        cases fuel with
        | zero => omega
        | succ fuel =>
            simp [walkPath, hLimit, truncatePath,
              hLength (fuel + 1) (by omega)]
      · rcases Option.ne_none_iff_exists'.mp hPrev with
          ⟨prevTag, hPrevTag⟩
        by_cases hEq : prevTag = tag
        · -- The start is reached.
          rw [hEq] at hPrevTag
          have hEqStart := hTree.eq_start hPrevTag
          rw [hEqStart] at hWalking
          refine ⟨s, ?_, hWalking.assembled, hWalking.mem⟩
          intro fuel hFuel
          cases fuel with
          | zero => omega
          | succ fuel => simp [walkPath, hLimit, hPrevTag]
        · have hNeStart : tag ≠ start := by
            intro hEqStart
            rw [hEqStart, hTree.start_prev] at hPrevTag
            rw [hEqStart] at hEq
            exact hEq (Option.some.inj hPrevTag).symm
          rcases hTree.step tag prevTag hNeStart hPrevTag
            with ⟨hBack, hStep⟩
          rcases exists_getReferrerInfo hBack with
            ⟨info, hGet, hInfo, hTag⟩
          have hPrevPrev :=
            hTree.total tag prevTag hPrevTag
          by_cases hKnown : s.tagToInfos prevTag = none
          · -- The path goes on with a new tag.
            have hNext :=
              hWalking.next hInfo hTag hBack.1 hPrevPrev
                (by omega)
            rcases ih (depth prevTag) (by omega) hNext rfl
              with ⟨s', hWalk, hAssembled⟩
            refine ⟨s', ?_, hAssembled⟩
            intro fuel hFuel
            cases fuel with
            | zero => omega
            | succ fuel =>
                have hRest := hWalk fuel (by omega)
                simp [walkPath, hLimit, hPrevTag, hEq,
                  insertInfos, hGet, hKnown, hRest]
          · -- The rest of the path was shown before.
            refine ⟨_, ?_,
              hWalking.join hInfo hTag hBack.1 hPrevPrev
                (by omega)
                ((hWalking.recorded.keys prevTag).mpr
                  hKnown)⟩
            intro fuel hFuel
            cases fuel with
            | zero => omega
            | succ fuel =>
                have hSome :
                    (s.tagToInfos prevTag).isSome = true :=
                  Option.isSome_iff_ne_none.mpr hKnown
                simp [walkPath, hLimit, hPrevTag, hEq,
                  insertInfos, hGet, hSome]

/- The next path starts with a found root. -/
theorem Assembled.walking
    (hAssembled : Assembled backRefs start prevNode s)
    {cnt : Nat}
    (hCnt : cnt = 0 ∨ start ∈ s.tags)
    (hRoot : hasGcRoot backRefs tag = true)
    (hPrev : prevNode tag ≠ none) :
    Walking backRefs start prevNode depth (cnt + 1) tag
      ⟨s.nodesToPathNum ++ [(tag, cnt)],
        insertRootInfos backRefs tag s.tagToInfos⟩ := by
  let nodes := s.nodesToPathNum ++ [(tag, cnt)]
  let new :=
    (backRefs tag).filter (fun info => info.tag == rootTag)
  have hNodes :
      ∀ t, t ∈ nodes.map Prod.fst ↔
        t ∈ s.tags ∨ t = tag := by
    intro t
    simp [nodes, Paths.tags]
  have hNew :
      ∀ info ∈ new,
        info ∈ backRefs tag ∧ info.tag = rootTag := by
    intro info hMem
    rcases List.mem_filter.mp hMem with ⟨hInfo, hTag⟩
    exact ⟨hInfo, by simpa using hTag⟩
  have hHas :
      HasRootInfo (appendInfos tag new s.tagToInfos) tag := by
    rcases List.any_eq_true.mp hRoot with
      ⟨info, hMem, hValid⟩
    have hTag := isValidGcRoot_tag hValid
    have hMemNew : info ∈ new :=
      List.mem_filter.mpr ⟨hMem, by simp [hTag]⟩
    exact ⟨_, appendInfos_self tag new s.tagToInfos, info,
      List.mem_append_right _ hMemNew, hTag⟩
  refine ⟨hAssembled.recorded.append hNodes ?_ ?_ hPrev,
    (hNodes tag).mpr (Or.inr rfl), ?_, ?_⟩
  · intro info hMem
    rcases hNew info hMem with ⟨hInfo, hTag⟩
    exact Or.inl ⟨hInfo, Or.inl hTag⟩
  · exact ⟨tag, Relation.ReflTransGen.refl, hHas⟩
  · intro t hMem
    rcases (hNodes t).mp hMem with hOld | hEq
    · rcases hAssembled.fromStart t hOld with
        ⟨hStartMem, hChain⟩
      exact Or.inl ⟨(hNodes start).mpr (Or.inl hStartMem),
        leads_append tag new hChain⟩
    · rw [hEq]
      exact Or.inr
        ⟨le_refl _, Relation.ReflTransGen.refl⟩
  · rcases hCnt with hZero | hMem
    · exact Or.inl (by omega)
    · exact Or.inr ((hNodes start).mpr (Or.inl hMem))

theorem walkPaths_spec
    (hTree : PrevTree backRefs start prevNode depth)
    (hStart : start ≠ rootTag)
    (objectsNumber : Int32)
    (limit : Nat)
    (roots : List jlong)
    {cnt : Nat}
    (hAssembled : Assembled backRefs start prevNode s)
    (hCnt : cnt = 0 ∨ start ∈ s.tags)
    (hRoots :
      ∀ tag ∈ roots,
        hasGcRoot backRefs tag = true ∧
          prevNode tag ≠ none) :
    ∃ s',
      (∃ n, ∀ fuel, n ≤ fuel →
        walkPaths backRefs prevNode start objectsNumber limit
          fuel roots cnt s = some s') ∧
      Assembled backRefs start prevNode s' := by
  induction roots generalizing cnt s with
  | nil => exact ⟨s, ⟨0, fun _ _ => rfl⟩, hAssembled⟩
  | cons tag roots ih =>
      by_cases hMore :
          s.nodesToPathNum.length < toSize objectsNumber
      · rcases hRoots tag List.mem_cons_self with
          ⟨hRoot, hPrev⟩
        rcases walkPath_spec hTree hStart limit (cnt + 1)
            (hAssembled.walking hCnt hRoot hPrev) with
          ⟨t, hWalk, hAssembledT, hMemT⟩
        have hRest :
            ∀ r ∈ roots,
              hasGcRoot backRefs r = true ∧
                prevNode r ≠ none :=
          fun r hMem =>
            hRoots r (List.mem_cons_of_mem tag hMem)
        have hCnt' : cnt + 1 = 0 ∨ start ∈ t.tags :=
          Or.inr hMemT
        rcases ih hAssembledT hCnt' hRest with
          ⟨s', ⟨n, hN⟩, hAssembled'⟩
        refine ⟨s', ⟨max n (depth tag + 1), ?_⟩,
          hAssembled'⟩
        intro fuel hFuel
        have hFirst := hWalk fuel (by omega)
        have hSecond := hN fuel (by omega)
        simp [walkPaths, hMore, hFirst, hSecond]
      · refine ⟨s, ⟨0, ?_⟩, hAssembled⟩
        intro fuel _
        simp [walkPaths, hMore]

theorem createPaths_assembled
    (hTree : PrevTree backRefs start prevNode depth)
    (hStart : start ≠ rootTag)
    (objectsNumber : Int32)
    {roots : List jlong}
    (hRoots :
      ∀ tag ∈ roots,
        hasGcRoot backRefs tag = true ∧
          prevNode tag ≠ none) :
    ∃ s,
      (∃ n, ∀ fuel, n ≤ fuel →
        createPaths backRefs prevNode start objectsNumber
          fuel roots = some s) ∧
      Assembled backRefs start prevNode s := by
  apply walkPaths_spec hTree hStart objectsNumber
    (pathsLimit objectsNumber roots.length) roots ?_
    (Or.inl rfl) hRoots
  have hNone :
      ∀ t, t ∉ (⟨[], fun _ => none⟩ : Paths).tags :=
    fun _ => List.not_mem_nil
  refine ⟨⟨?_, ?_, ?_, ?_⟩, ?_⟩
  · intro t
    simp [Paths.tags]
  · intro t infos hInfos
    cases hInfos
  · intro t hMem
    exact absurd hMem (hNone t)
  · intro t hMem
    exact absurd hMem (hNone t)
  · intro t hMem
    exact absurd hMem (hNone t)

end Walk

------------------------------------------------------------
-- More Fuel
------------------------------------------------------------

section Fuel

variable {backRefs : jlong → List ReferenceInfo}
variable {start tag : jlong}
variable {prevNode : jlong → Option jlong}
variable {objectsNumber : Int32}
variable {limit cnt fuel : Nat}
variable {roots : List jlong}
variable {s s' : Paths}

theorem lengthToStart_more
    {length : Int}
    (hLength :
      lengthToStart prevNode fuel tag = some length) :
    lengthToStart prevNode (fuel + 1) tag = some length := by
  induction fuel generalizing tag length with
  | zero => cases hLength
  | succ fuel ih =>
      rw [lengthToStart] at hLength ⊢
      rcases Option.bind_eq_some_iff.mp hLength with
        ⟨prevTag, hPrev, hRest⟩
      refine Option.bind_eq_some_iff.mpr
        ⟨prevTag, hPrev, ?_⟩
      split_ifs at hRest ⊢ with hSame
      · exact hRest
      · rcases Option.bind_eq_some_iff.mp hRest with
          ⟨length', hLength', hEq⟩
        exact Option.bind_eq_some_iff.mpr
          ⟨length', ih hLength', hEq⟩

theorem walkPath_more
    (hWalk :
      walkPath backRefs prevNode start limit cnt fuel tag s =
        some s') :
    walkPath backRefs prevNode start limit cnt (fuel + 1) tag
      s = some s' := by
  induction fuel generalizing tag s with
  | zero => cases hWalk
  | succ fuel ih =>
      rw [walkPath] at hWalk ⊢
      by_cases hLimit : limit ≤ s.nodesToPathNum.length
      · rw [if_pos hLimit] at hWalk ⊢
        rcases Option.bind_eq_some_iff.mp hWalk with
          ⟨infos, hInfos, hEq⟩
        rcases Option.bind_eq_some_iff.mp hInfos with
          ⟨length, hLength, hNew⟩
        exact Option.bind_eq_some_iff.mpr
          ⟨infos, Option.bind_eq_some_iff.mpr
            ⟨length, lengthToStart_more hLength, hNew⟩, hEq⟩
      · rw [if_neg hLimit] at hWalk ⊢
        rcases Option.bind_eq_some_iff.mp hWalk with
          ⟨prevTag, hPrev, hRest⟩
        refine Option.bind_eq_some_iff.mpr
          ⟨prevTag, hPrev, ?_⟩
        by_cases hSelf : prevTag = tag
        · rw [if_pos hSelf] at hRest ⊢
          exact hRest
        · rw [if_neg hSelf] at hRest ⊢
          rcases Option.bind_eq_some_iff.mp hRest with
            ⟨⟨known, infos⟩, hInsert, hNext⟩
          refine Option.bind_eq_some_iff.mpr
            ⟨⟨known, infos⟩, hInsert, ?_⟩
          by_cases hKnown : known = true
          · simp only [hKnown, if_true] at hNext ⊢
            exact hNext
          · simp only [hKnown] at hNext ⊢
            exact ih hNext

theorem walkPaths_more
    (hWalk :
      walkPaths backRefs prevNode start objectsNumber limit
        fuel roots cnt s = some s') :
    walkPaths backRefs prevNode start objectsNumber limit
      (fuel + 1) roots cnt s = some s' := by
  induction roots generalizing cnt s with
  | nil => exact hWalk
  | cons tag roots ih =>
      rw [walkPaths] at hWalk ⊢
      split_ifs at hWalk ⊢ with hMore
      · rcases Option.bind_eq_some_iff.mp hWalk with
          ⟨t, hFirst, hRest⟩
        exact Option.bind_eq_some_iff.mpr
          ⟨t, walkPath_more hFirst, ih hRest⟩
      · exact hWalk

/- What the loops return does not depend on the fuel. -/
theorem createPaths_of_le
    {fuel' : Nat}
    (hLe : fuel ≤ fuel')
    (hPaths :
      createPaths backRefs prevNode start objectsNumber fuel
        roots = some s) :
    createPaths backRefs prevNode start objectsNumber fuel'
      roots = some s := by
  induction hLe with
  | refl => exact hPaths
  | step _ ih => exact walkPaths_more ih

end Fuel

end Roots

end MemoryAgent
