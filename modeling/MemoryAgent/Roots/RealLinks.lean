import MemoryAgent.Containers.Vector
import MemoryAgent.Roots.PathsToClosestGcRoots
import MemoryAgent.Roots.RecordedReferences

/-
  When the reported links are references of the heap: if no
  class object that shares its tag leads to the target, but
  not if two of these class objects are reported.

  Key definitions include:
    * `Roots.Traced`
    * `Roots.Apart`
    * `Roots.Built`

  Main results:
    * `Roots.getTagToIndex_eq_some_iff`
    * `Roots.Traced.real`
    * `Roots.exists_outcome`
    * `Roots.not_real_of_two`
-/

------------------------------------------------------------
-- Indices of Tags
------------------------------------------------------------

namespace MemoryAgent

namespace Roots

open ClosestGcRoots RecordStore

variable {O : Type}

theorem getTagToIndex_append
    (objectToTag : List (O × jlong))
    (entry : O × jlong) :
    getTagToIndex (objectToTag ++ [entry]) =
      Function.update (getTagToIndex objectToTag) entry.2
        (some objectToTag.length) := by
  simp [getTagToIndex, List.zipIdx_append]

/- A tag has the last index at which it stands. -/
theorem getTagToIndex_eq_some_iff
    {objectToTag : List (O × jlong)}
    {t : jlong}
    {i : Nat} :
    getTagToIndex objectToTag t = some i ↔
      (∃ o, objectToTag[i]? = some (o, t)) ∧
        ∀ (j : Nat) o, objectToTag[j]? = some (o, t) →
          j ≤ i := by
  induction objectToTag using List.reverseRecOn with
  | nil => simp [getTagToIndex]
  | append_singleton rest entry ih =>
      have hLast :
          ∀ (j : Nat) (x : O × jlong),
            (rest ++ [entry])[j]? = some x →
              rest[j]? = some x ∨
                (j = rest.length ∧ x = entry) := by
        intro j x hGet
        rcases Nat.lt_trichotomy j rest.length with
          hLt | hEq | hGt
        · rw [List.getElem?_append_left hLt] at hGet
          exact Or.inl hGet
        · subst hEq
          simp at hGet
          exact Or.inr ⟨rfl, hGet.symm⟩
        · rw [List.getElem?_eq_none (by simp; omega)] at hGet
          cases hGet
      have hOld :
          ∀ (j : Nat) (x : O × jlong),
            rest[j]? = some x →
              (rest ++ [entry])[j]? = some x ∧
                j < rest.length := by
        intro j x hGet
        have hLt := (List.getElem?_eq_some_iff.mp hGet).1
        exact ⟨(List.getElem?_append_left hLt).trans hGet,
          hLt⟩
      rw [getTagToIndex_append]
      by_cases hTag : t = entry.2
      · subst hTag
        rw [Function.update_self]
        constructor
        · intro hEq
          rw [← Option.some.inj hEq]
          refine ⟨⟨entry.1, by simp⟩, ?_⟩
          intro j o hGet
          rcases hLast j _ hGet with hRest | ⟨hEnd, _⟩
          · exact le_of_lt (hOld j _ hRest).2
          · omega
        · rintro ⟨⟨o, hGet⟩, hMax⟩
          have hLe := hMax rest.length entry.1 (by simp)
          rcases hLast i _ hGet with hRest | ⟨hEnd, _⟩
          · have hLt := (hOld i _ hRest).2
            omega
          · rw [hEnd]
      · rw [Function.update_of_ne hTag, ih]
        constructor
        · rintro ⟨⟨o, hGet⟩, hMax⟩
          refine ⟨⟨o, (hOld i _ hGet).1⟩, ?_⟩
          intro j p hGetJ
          rcases hLast j _ hGetJ with hRest | ⟨_, hEq⟩
          · exact hMax j p hRest
          · exact absurd (congrArg Prod.snd hEq) hTag
        · rintro ⟨⟨o, hGet⟩, hMax⟩
          constructor
          · rcases hLast i _ hGet with hRest | ⟨_, hEq⟩
            · exact ⟨o, hRest⟩
            · exact absurd (congrArg Prod.snd hEq) hTag
          · intro j p hGetJ
            exact hMax j p (hOld j _ hGetJ).1

/- Where no tag stands twice, its index is its object's. -/
theorem getTagToIndex_map
    {tag : O → jlong}
    {objects : List O}
    (hNodup : objects.Nodup)
    (hInj :
      ∀ o ∈ objects, ∀ p ∈ objects, tag o = tag p → o = p)
    {t : jlong}
    {i : Nat} :
    getTagToIndex (objects.map (fun o => (o, tag o))) t =
        some i ↔
      ∃ o, objects[i]? = some o ∧ tag o = t := by
  have hGet :
      ∀ (j : Nat) o,
        (objects.map (fun o => (o, tag o)))[j]? =
            some (o, t) ↔
          objects[j]? = some o ∧ tag o = t := by
    intro j o
    rw [List.getElem?_map, Option.map_eq_some_iff]
    constructor
    · rintro ⟨p, hP, hEq⟩
      cases hEq
      exact ⟨hP, rfl⟩
    · rintro ⟨hO, rfl⟩
      exact ⟨o, hO, rfl⟩
  rw [getTagToIndex_eq_some_iff]
  simp only [hGet]
  constructor
  · exact And.left
  · rintro ⟨o, hO, hTag⟩
    refine ⟨⟨o, hO, hTag⟩, ?_⟩
    rintro j p ⟨hP, hTagP⟩
    have hEq : o = p :=
      hInj o (List.mem_of_getElem? hO) p
        (List.mem_of_getElem? hP) (hTag.trans hTagP.symm)
    rw [← hEq] at hP
    have hLt := (List.getElem?_eq_some_iff.mp hP).1
    exact le_of_eq
      ((List.getElem?_inj hLt hNodup).mp (hP.trans hO.symm))

------------------------------------------------------------
-- Outcomes
------------------------------------------------------------

/-
  Every tag asked for belongs to one object.  The references
  shown for it are references to this object or mark a cut,
  and the tags asked for are joined by them.
-/
structure Traced
    (h : Heap O)
    (m : Addresses)
    (target : O)
    (c : Outcome O) : Prop where
  target_tag : c.tag target = c.start
  ne_root : ∀ o, c.tag o ≠ rootTag
  owner :
    ∀ t ∈ c.requested, t ≠ 0 →
      ∃ o, c.tag o = t ∧ ∀ p, c.tag p = t → p = o
  pointer :
    ∀ t ∈ c.requested, t ≠ 0 →
      ∃ r, c.tags.pointerToGcTag m t = some r
  shown :
    ∀ o, c.tag o ∈ c.requested → c.tag o ≠ 0 →
      ∃ infos, c.infos m (c.tag o) = some infos ∧
        ∀ info ∈ infos,
          Denotes h c.tag o info ∨
            (info.kind = .memoryAgentTruncate ∧
              info.tag ≠ rootTag)
  joined :
    c.requested = [c.start] ∨
      ∀ t ∈ c.requested, t ≠ 0 →
        (c.start ∈ c.requested ∧ c.start ≠ 0) ∧
          (∀ t', Leads (c.infos m) t t' →
            t' ∈ c.requested ∧ t' ≠ 0) ∧
          Relation.ReflTransGen (Leads (c.infos m)) c.start
            t ∧
          LeadsToRoot (c.infos m) t

/- The links shown for an object. -/
def linksOf
    (m : Addresses)
    (c : Outcome O)
    (objects : List O)
    (o : O) : List Link :=
  createLinksInfos
    (getTagToIndex (objects.map (fun o => (o, c.tag o))))
    ((c.infos m (c.tag o)).getD [])

section Traced

variable {h : Heap O}
variable {m : Addresses}
variable {target : O}
variable {c : Outcome O}
variable {objects : List O}

theorem mem_linksOf_iff
    {o : O}
    {link : Link} :
    link ∈ linksOf m c objects o ↔
      ∃ infos, c.infos m (c.tag o) = some infos ∧
        ∃ info ∈ infos,
          (info.tag = rootTag ∧
              link = ⟨-1, info.kind, info.detail⟩) ∨
            (info.tag ≠ rootTag ∧
              ∃ j : Nat,
                getTagToIndex
                    (objects.map (fun o => (o, c.tag o)))
                    info.tag = some j ∧
                  link = ⟨j, info.kind, info.detail⟩) := by
  unfold linksOf createLinksInfos
  cases hInfos : c.infos m (c.tag o) with
  | none => simp
  | some infos =>
      rw [Option.getD_some, List.mem_filterMap]
      constructor
      · rintro ⟨info, hMem, hLink⟩
        refine ⟨infos, rfl, info, hMem, ?_⟩
        by_cases hRoot : info.tag = rootTag
        · rw [if_pos hRoot] at hLink
          exact Or.inl ⟨hRoot, (Option.some.inj hLink).symm⟩
        · rw [if_neg hRoot] at hLink
          rcases Option.map_eq_some_iff.mp hLink with
            ⟨j, hJ, hEq⟩
          exact Or.inr ⟨hRoot, j, hJ, hEq.symm⟩
      · rintro ⟨infos', hSame, info, hMem, hLink⟩
        rw [← Option.some.inj hSame] at hMem
        refine ⟨info, hMem, ?_⟩
        rcases hLink with ⟨hRoot, hEq⟩ | ⟨hRoot, j, hJ, hEq⟩
        · rw [if_pos hRoot, hEq]
        · rw [if_neg hRoot, hJ, hEq]
          rfl

theorem Answered.mem_iff
    (hAnswered : Answered c objects)
    (o : O) :
    o ∈ objects ↔ c.tag o ≠ 0 ∧ c.tag o ∈ c.requested :=
  hAnswered.tagged.2 o

/- Objects of an answer with equal tags are equal. -/
theorem Traced.inj
    (hTraced : Traced h m target c)
    {o p : O}
    (hNe : c.tag o ≠ 0)
    (hMem : c.tag o ∈ c.requested)
    (hSame : c.tag o = c.tag p) :
    o = p := by
  rcases hTraced.owner (c.tag o) hMem hNe with
    ⟨q, _, hOnly⟩
  rw [hOnly o rfl, hOnly p hSame.symm]

theorem Traced.index_iff
    (hTraced : Traced h m target c)
    (hAnswered : Answered c objects)
    {t : jlong}
    {j : Nat} :
    getTagToIndex (objects.map (fun o => (o, c.tag o))) t =
        some j ↔
      ∃ o, objects[j]? = some o ∧ c.tag o = t := by
  apply getTagToIndex_map hAnswered.tagged.1
  intro o hO p _ hSame
  rcases (hAnswered.mem_iff o).mp hO with ⟨hNe, hMem⟩
  exact hTraced.inj hNe hMem hSame

/- The result lists the objects and the links of each. -/
theorem Traced.createResultObject
    (hTraced : Traced h m target c)
    (hAnswered : Answered c objects) :
    ∃ weakSoftReachable,
      Roots.createResultObject m c.tags
          (objects.map (fun o => (o, c.tag o))) (c.infos m) =
        some ⟨objects, objects.map (linksOf m c objects),
          weakSoftReachable⟩ := by
  have hLinks :
      (objects.map (fun o => (o, c.tag o))).mapM
          (fun entry =>
            (c.infos m entry.2).map
              (createLinksInfos (getTagToIndex
                (objects.map (fun o => (o, c.tag o)))))) =
        some (objects.map (linksOf m c objects)) := by
    rw [List.mapM_map]
    apply StdVector.mapM_eq_some_map
    intro o hO
    rcases (hAnswered.mem_iff o).mp hO with ⟨hNe, hMem⟩
    rcases hTraced.shown o hMem hNe with ⟨infos, hInfos, _⟩
    simp [linksOf, hInfos]
  have hWeak :
      ∃ weak,
        (objects.map (fun o => (o, c.tag o))).mapM
            (fun entry =>
              (c.tags.pointerToGcTag m entry.2).map
                GcTag.isWeakSoftReachable) =
          some weak := by
    refine ⟨objects.map (fun o =>
      ((c.tags.pointerToGcTag m (c.tag o)).map
        GcTag.isWeakSoftReachable).getD false), ?_⟩
    rw [List.mapM_map]
    apply StdVector.mapM_eq_some_map
    intro o hO
    rcases (hAnswered.mem_iff o).mp hO with ⟨hNe, hMem⟩
    rcases hTraced.pointer _ hMem hNe with ⟨r, hR⟩
    simp [hR]
  have hObjects :
      (objects.map (fun o => (o, c.tag o))).map Prod.fst =
        objects := by
    rw [List.map_map]
    exact List.map_id _
  rcases hWeak with ⟨weak, hWeak⟩
  refine ⟨weak, ?_⟩
  unfold Roots.createResultObject
  simp only [hLinks, hWeak, hObjects]
  simp

/- What is shown for a tag appears as a link. -/
theorem Traced.linksTo
    (hTraced : Traced h m target c)
    (hAnswered : Answered c objects)
    {weak : List Bool}
    {i j : Nat}
    {o p : O}
    (hO : objects[i]? = some o)
    (hP : objects[j]? = some p)
    (hLeads : Leads (c.infos m) (c.tag o) (c.tag p)) :
    Result.LinksTo
      ⟨objects, objects.map (linksOf m c objects), weak⟩
      i j := by
  rcases hLeads with ⟨hNe, infos, hInfos, info, hMem, hTag⟩
  have hIndex :
      getTagToIndex (objects.map (fun o => (o, c.tag o)))
          info.tag = some j :=
    (hTraced.index_iff hAnswered).mpr ⟨p, hP, hTag.symm⟩
  refine ⟨linksOf m c objects o, by simp [hO],
    ⟨j, info.kind, info.detail⟩, ?_, rfl⟩
  rw [mem_linksOf_iff]
  exact ⟨infos, hInfos, info, hMem,
    Or.inr ⟨hTag ▸ hNe, j, hIndex, rfl⟩⟩

/- A chain of what is shown appears as a chain of links. -/
theorem Traced.linksTo_chain
    (hTraced : Traced h m target c)
    (hAnswered : Answered c objects)
    (hClosed :
      ∀ t ∈ c.requested, t ≠ 0 →
        ∀ t', Leads (c.infos m) t t' →
          t' ∈ c.requested ∧ t' ≠ 0)
    (weak : List Bool)
    {i : Nat}
    {o : O}
    (hO : objects[i]? = some o)
    {t : jlong}
    (hChain :
      Relation.ReflTransGen (Leads (c.infos m)) (c.tag o)
        t) :
    ∃ (j : Nat) (p : O),
      objects[j]? = some p ∧ c.tag p = t ∧
        Relation.ReflTransGen
          (Result.LinksTo
            ⟨objects, objects.map (linksOf m c objects),
              weak⟩) i j := by
  induction hChain with
  | refl => exact ⟨i, o, hO, rfl, .refl⟩
  | @tail t t' _ hLeads ih =>
      rcases ih with ⟨j, p, hP, hTag, hLinks⟩
      subst hTag
      rcases (hAnswered.mem_iff p).mp
          (List.mem_of_getElem? hP) with ⟨hNe, hMem⟩
      rcases hClosed _ hMem hNe t' hLeads with
        ⟨hMem', hNe'⟩
      rcases hTraced.owner t' hMem' hNe' with ⟨q, hQ, _⟩
      subst hQ
      rcases List.mem_iff_getElem?.mp
          ((hAnswered.mem_iff q).mpr ⟨hNe', hMem'⟩) with
        ⟨k, hK⟩
      exact ⟨k, q, hK, rfl,
        hLinks.tail (hTraced.linksTo hAnswered hP hK hLeads)⟩

/- Every object of the result is on a reported path. -/
theorem Traced.onPath
    (hTraced : Traced h m target c)
    (hAnswered : Answered c objects)
    {weak : List Bool}
    {i : Nat}
    (hLt : i < objects.length) :
    Result.OnPath target
      ⟨objects, objects.map (linksOf m c objects), weak⟩
      i := by
  have hO : objects[i]? = some (objects[i]) :=
    List.getElem?_eq_getElem hLt
  rcases (hAnswered.mem_iff objects[i]).mp
      (List.getElem_mem hLt) with ⟨hNe, hMem⟩
  rcases hTraced.joined with hOnly | hJoined
  · -- No root was found: the target is alone.
    have hAll : ∀ p, p ∈ objects ↔ p = target := by
      intro p
      rw [hAnswered.mem_iff p, hOnly, List.mem_singleton]
      constructor
      · rintro ⟨hNeP, hTag⟩
        apply hTraced.inj hNeP
        · rw [hOnly, hTag]
          exact List.mem_singleton_self _
        · rw [hTag, hTraced.target_tag]
      · intro hEq
        have hTag : c.tag objects[i] = c.start := by
          rw [hOnly] at hMem
          exact List.mem_singleton.mp hMem
        rw [hEq, hTraced.target_tag]
        exact ⟨hTag ▸ hNe, rfl⟩
    have hSingle : objects = [target] := by
      have hNodup := hAnswered.tagged.1
      have hPerm : objects.Perm [target] := by
        rw [List.perm_ext_iff_of_nodup hNodup
          (List.nodup_singleton target)]
        intro p
        rw [hAll p, List.mem_singleton]
      exact List.perm_singleton.mp hPerm
    have hTarget : objects[i] = target :=
      (hAll _).mp (List.getElem_mem hLt)
    exact ⟨i, by rw [hO, hTarget], .refl, Or.inl hSingle⟩
  · rcases hJoined _ hMem hNe with
      ⟨⟨hStart, hStartNe⟩, _, hFrom, k, hTo, hRoot⟩
    have hClosed :
        ∀ t ∈ c.requested, t ≠ 0 →
          ∀ t', Leads (c.infos m) t t' →
            t' ∈ c.requested ∧ t' ≠ 0 :=
      fun t hMemT hNeT => (hJoined t hMemT hNeT).2.1
    have hTargetMem : target ∈ objects := by
      rw [hAnswered.mem_iff, hTraced.target_tag]
      exact ⟨hStartNe, hStart⟩
    rcases List.mem_iff_getElem?.mp hTargetMem with
      ⟨t, hT⟩
    rw [← hTraced.target_tag] at hFrom
    rcases hTraced.linksTo_chain hAnswered hClosed weak hT
        hFrom with
      ⟨j, p, hP, hTag, hLinks⟩
    have hEq := hTraced.inj hNe hMem hTag.symm
    rw [← hEq] at hP
    have hIndex : i = j :=
      (List.getElem?_inj hLt hAnswered.tagged.1).mp
        (hO.trans hP.symm)
    rw [← hIndex] at hLinks
    rcases hTraced.linksTo_chain hAnswered hClosed weak hO
        hTo with
      ⟨l, q, hQ, hTagQ, hLinksQ⟩
    refine ⟨t, hT, hLinks, Or.inr ⟨l, hLinksQ, ?_⟩⟩
    rcases hRoot with ⟨infos, hInfos, info, hInfo, hTagInfo⟩
    refine ⟨linksOf m c objects q, by simp [hQ],
      ⟨-1, info.kind, info.detail⟩, ?_, rfl⟩
    rw [mem_linksOf_iff, hTagQ]
    exact ⟨infos, hInfos, info, hInfo,
      Or.inl ⟨hTagInfo, rfl⟩⟩

/- The detail shown does not depend on the tag. -/
theorem createReferenceInfo_detail
    (tag : jlong)
    (kind : HeapReferenceKind)
    (info : HeapReferenceInfo) :
    (createReferenceInfo tag kind info).detail =
      (createReferenceInfo rootTag kind info).detail := by
  cases kind <;> rfl

theorem Traced.real
    (hTraced : Traced h m target c)
    (hAnswered : Answered c objects)
    (weak : List Bool) :
    Real h target
      ⟨objects, objects.map (linksOf m c objects), weak⟩ := by
  have hLinks :
      ∀ (i : Nat) o links,
        objects[i]? = some o →
          (objects.map (linksOf m c objects))[i]? =
              some links →
            links = linksOf m c objects o := by
    intro i o links hO hGet
    rw [List.getElem?_map, hO] at hGet
    exact (Option.some.inj hGet).symm
  constructor
  · exact List.length_map _
  · intro i o links hO hGet link hMem hIndex
    rw [hLinks i o links hO hGet, mem_linksOf_iff] at hMem
    rcases (hAnswered.mem_iff o).mp
        (List.mem_of_getElem? hO) with ⟨hNe, hRequested⟩
    rcases hTraced.shown o hRequested hNe with
      ⟨infos, hInfos, hShown⟩
    rcases hMem with ⟨infos', hSame, info, hInfo, hCase⟩
    rw [hInfos] at hSame
    rw [← Option.some.inj hSame] at hInfo
    rcases hCase with ⟨hRoot, rfl⟩ | ⟨_, j, _, rfl⟩
    · rcases hShown info hInfo with
        (⟨r, hR, hReferee, rfl⟩ |
          ⟨p, _, _, r, _, _, rfl⟩) | ⟨_, hNotRoot⟩
      · exact ⟨r, hR, hReferee, by simp, rfl⟩
      · rw [createReferenceInfo_tag] at hRoot
        exact absurd hRoot (hTraced.ne_root p)
      · exact absurd hRoot hNotRoot
    · have hNonneg : (0 : Int) ≤ j := Int.natCast_nonneg j
      change (j : Int) = -1 at hIndex
      omega
  · intro i o links hO hGet link hMem hKind hIndex
    rw [hLinks i o links hO hGet, mem_linksOf_iff] at hMem
    rcases (hAnswered.mem_iff o).mp
        (List.mem_of_getElem? hO) with ⟨hNe, hRequested⟩
    rcases hTraced.shown o hRequested hNe with
      ⟨infos, hInfos, hShown⟩
    rcases hMem with ⟨infos', hSame, info, hInfo, hCase⟩
    rw [hInfos] at hSame
    rw [← Option.some.inj hSame] at hInfo
    rcases hCase with ⟨_, rfl⟩ | ⟨hNotRoot, j, hJ, rfl⟩
    · exact absurd rfl hIndex
    · rcases (hTraced.index_iff hAnswered).mp hJ with
        ⟨q, hQ, hTagQ⟩
      rcases hShown info hInfo with
        (⟨r, _, _, rfl⟩ | ⟨p, _, hNeP, r, hR, hReferee, rfl⟩) |
          ⟨hTruncate, _⟩
      · exact absurd (createReferenceInfo_tag _ _ _) hNotRoot
      · rw [createReferenceInfo_tag] at hTagQ
        rcases (hAnswered.mem_iff q).mp
            (List.mem_of_getElem? hQ) with ⟨hNeQ, hMemQ⟩
        have hEq := hTraced.inj hNeQ hMemQ hTagQ
        refine ⟨j, q, rfl, hQ, r, hEq ▸ hR, hReferee, ?_, ?_⟩
        · exact createReferenceInfo_kind _ _ _
        · exact createReferenceInfo_detail _ _ _
      · exact absurd hTruncate hKind
  · exact fun i hLt => hTraced.onPath hAnswered hLt

end Traced

------------------------------------------------------------
-- The Search
------------------------------------------------------------

/- The links of a frontier lead back to its start. -/
theorem prevTree_of_frontier
    {backRefs : jlong → List ReferenceInfo}
    {start : jlong}
    {done queue : List jlong}
    {prevTag : jlong → Option jlong}
    {depth : jlong → Nat}
    (hFrontier :
      BreadthFirst.Frontier (BackReference backRefs) start
        done queue prevTag depth) :
    PrevTree backRefs start prevTag depth := by
  refine ⟨hFrontier.start_prev, hFrontier.step, ?_⟩
  intro a b hPrev
  by_cases hEq : a = start
  · rw [hEq, hFrontier.start_prev] at hPrev
    rw [← Option.some.inj hPrev, hFrontier.start_prev]
    exact Option.some_ne_none start
  · apply (hFrontier.discovered b).mpr
    rcases hFrontier.parent a b hEq hPrev with hDone | hHead
    · exact List.mem_append_left _ hDone
    · exact List.mem_append_right _ (List.mem_of_mem_head? hHead)

/-
  What a search leaves behind: a frontier of distances and
  the closest tags with a counted root reference.
-/
structure Explored
    (backRefs : jlong → List ReferenceInfo)
    (start : jlong)
    (number : Int32)
    (depth : jlong → Nat)
    (s : Search) : Prop where
  frontier :
    ∃ done queue,
      BreadthFirst.Frontier (BackReference backRefs) start
        done queue s.prevTag depth
  found : Found backRefs start depth s
  few : s.foundRoots.length ≤ toSize number

section Explored

variable {g : BackReferenceGraph}
variable {start : jlong}
variable {number : Int32}
variable {depth : jlong → Nat}
variable {s : Search}

theorem Explored.tree
    {backRefs : jlong → List ReferenceInfo}
    (hExplored :
      Explored backRefs start number depth s) :
    PrevTree backRefs start s.prevTag depth := by
  rcases hExplored.frontier with ⟨done, queue, hFrontier⟩
  exact prevTree_of_frontier hFrontier

theorem Explored.start_depth
    {backRefs : jlong → List ReferenceInfo}
    (hExplored :
      Explored backRefs start number depth s) :
    depth start = 0 := by
  rcases hExplored.frontier with ⟨done, queue, hFrontier⟩
  exact hFrontier.start_depth

theorem Explored.mem_tags
    (hStart : start ∈ g.tags)
    (hExplored :
      Explored g.backRefs start number depth s)
    {t : jlong}
    (hPrev : s.prevTag t ≠ none) :
    t ∈ g.tags := by
  rcases hExplored.frontier with ⟨done, queue, hFrontier⟩
  exact mem_tags_of_steps g hStart
    (hFrontier.steps_depth
      ((hFrontier.discovered t).mp hPrev))

theorem Explored.discovered
    {backRefs : jlong → List ReferenceInfo}
    (hExplored :
      Explored backRefs start number depth s)
    {t : jlong}
    (hMem : t ∈ s.foundRoots) :
    s.prevTag t ≠ none := by
  have hFollow := (hExplored.found.chain t hMem).1
  intro hNone
  cases hDepth : depth t with
  | zero =>
      rw [hDepth] at hFollow
      rw [Option.some.inj hFollow,
        hExplored.tree.start_prev] at hNone
      cases hNone
  | succ n =>
      rw [hDepth] at hFollow
      simp [BreadthFirst.follow, hNone] at hFollow

/- A search returns, whatever number of paths is wanted. -/
theorem exists_explored
    (hStart : start ∈ g.tags)
    (number : Int32) :
    ∃ s depth,
      (∃ n, ∀ fuel, n ≤ fuel →
        search g.backRefs start number fuel = some s) ∧
      Explored g.backRefs start number depth s := by
  by_cases hFew :
      (initialSearch start).foundRoots.length <
        toSize number
  · rcases searchLoop_outcome g hStart (g.tags.card + 1)
        (by simp) hFew Searched.init with
      ⟨s, hLoop, hOutcome⟩
    have hReturns :
        ∃ n, ∀ fuel, n ≤ fuel →
          search g.backRefs start number fuel = some s := by
      refine ⟨g.tags.card + 1, ?_⟩
      intro fuel hFuel
      rcases Nat.exists_eq_add_of_le hFuel with ⟨more, rfl⟩
      exact searchLoop_add_fuel _ more hLoop
    rcases hOutcome with
      ⟨_, hLess, done, depth, hSearched⟩ |
        ⟨hEnough, done, current, seen, rest, depth, hInfos,
          hScanned⟩
    · exact ⟨s, depth, hReturns,
        ⟨_, _, hSearched.frontier⟩, hSearched.found,
        hLess.le⟩
    · exact ⟨s, depth, hReturns,
        ⟨_, _, hScanned.frontier⟩, hScanned.found hInfos,
        hEnough.le⟩
  · -- No path is wanted, and the search does not begin.
    have hFrontier :=
      BreadthFirst.Frontier.init
        (BackReference g.backRefs) start
    refine ⟨initialSearch start, _, ⟨1, ?_⟩,
      ⟨_, _, hFrontier⟩,
      found_of_frontier hFrontier (List.nil_sublist _) ?_ ?_,
      Nat.zero_le _⟩
    · intro fuel hFuel
      cases fuel with
      | zero => omega
      | succ fuel =>
          unfold search searchTags searchLoop
          exact if_neg hFew
    · intro t hMem
      exact absurd hMem List.not_mem_nil
    · intro t hMem
      exact absurd hMem List.not_mem_nil

/- Every result of a search is the one of enough fuel. -/
theorem explored_of_search
    (hStart : start ∈ g.tags)
    {fuel : Nat}
    (hSearch :
      search g.backRefs start number fuel = some s) :
    ∃ depth, Explored g.backRefs start number depth s := by
  rcases exists_explored hStart number with
    ⟨s', depth, ⟨n, hReturns⟩, hExplored⟩
  have hSame :=
    searchLoop_add_fuel fuel n hSearch
  have hOther := hReturns (fuel + n) (by omega)
  unfold search searchTags at hOther
  rw [hSame] at hOther
  rw [Option.some.inj hOther]
  exact ⟨depth, hExplored⟩

end Explored

------------------------------------------------------------
-- Links of the Heap
------------------------------------------------------------

section Action

variable [DecidableEq O]
variable {h : Heap O}
variable {m : Addresses}
variable {refClasses : List O}
variable {target : O}
variable {start : jlong}
variable {tag : O → jlong}
variable {tags : GcTags}

/-
  No object that shares its tag, and is reached from a root,
  leads to the target.
-/
def Apart
    (h : Heap O)
    (refClasses : List O)
    (target : O) : Prop :=
  ∀ c, Carrier refClasses target c → Alive h c →
    ¬ h.Reachable c target

omit [DecidableEq O] in
theorem WellTagged.denotes
    (hTagged :
      WellTagged h m refClasses target start tag tags)
    {o : O}
    (hNe : tag o ≠ 0)
    (hNotShared : tag o ≠ m.weakSoftReferenceTag)
    {info : ReferenceInfo}
    (hMem : info ∈ tags.recorded m (tag o)) :
    Denotes h tag o info := by
  rw [GcTags.recorded_eq] at hMem
  unfold GcTags.pointerToGcTag at hMem
  rw [if_neg hNe, if_neg hNotShared] at hMem
  cases hGet : tags.store.get (tag o) with
  | none =>
      rw [hGet] at hMem
      exact absurd hMem List.not_mem_nil
  | some t =>
      rw [hGet] at hMem
      exact hTagged.recorded o t hNe hNotShared hGet info
        hMem

/- The tags from which references lead to the target. -/
noncomputable def backReferenceGraph
    [Fintype O]
    (hTagged :
      WellTagged h m refClasses target start tag tags)
    (hApart : Apart h refClasses target) :
    BackReferenceGraph where
  tags :=
    open Classical in
    (Finset.univ.filter (fun o =>
      tag o ≠ 0 ∧ ¬ Carrier refClasses target o ∧
        h.Reachable o target)).image tag
  backRefs := tags.recorded m
  closed := by
    classical
    rintro t hMem parentTag ⟨hNotRoot, info, hInfo, rfl⟩
    rcases Finset.mem_image.mp hMem with ⟨o, hO, rfl⟩
    rcases (Finset.mem_filter.mp hO).2 with
      ⟨hNe, hNot, hReachable⟩
    have hNotShared : tag o ≠ m.weakSoftReferenceTag :=
      fun hEq => hNot ((hTagged.shared o).mp hEq)
    rcases hTagged.denotes hNe hNotShared hInfo with
      ⟨r, _, _, rfl⟩ | ⟨p, hAlive, hNeP, r, hR, hReferee, rfl⟩
    · exact absurd (createReferenceInfo_tag _ _ _) hNotRoot
    · have hFrom : h.Reachable p target :=
        hReachable.head ⟨r, hR, hReferee⟩
      rw [createReferenceInfo_tag]
      refine Finset.mem_image.mpr ⟨p, ?_, rfl⟩
      refine Finset.mem_filter.mpr
        ⟨Finset.mem_univ p, hNeP, ?_, hFrom⟩
      exact fun hCarrier => hApart p hCarrier hAlive hFrom

omit [DecidableEq O] in
theorem mem_backReferenceGraph
    [Fintype O]
    (hTagged :
      WellTagged h m refClasses target start tag tags)
    (hApart : Apart h refClasses target)
    {t : jlong}
    (hMem : t ∈ (backReferenceGraph hTagged hApart).tags) :
    t ≠ 0 ∧
      ∃ o, tag o = t ∧ t ≠ m.weakSoftReferenceTag ∧
        ∀ p, tag p = t → p = o := by
  classical
  rcases Finset.mem_image.mp hMem with ⟨o, hO, rfl⟩
  rcases (Finset.mem_filter.mp hO).2 with ⟨hNe, hNot, _⟩
  have hNotShared : tag o ≠ m.weakSoftReferenceTag :=
    fun hEq => hNot ((hTagged.shared o).mp hEq)
  refine ⟨hNe, o, rfl, hNotShared, ?_⟩
  intro p hSame
  exact (hTagged.inj o p hNe hNotShared hSame.symm).symm

omit [DecidableEq O] in
theorem start_mem_backReferenceGraph
    [Fintype O]
    (hTagged :
      WellTagged h m refClasses target start tag tags)
    (hApart : Apart h refClasses target) :
    start ∈ (backReferenceGraph hTagged hApart).tags := by
  classical
  refine Finset.mem_image.mpr
    ⟨target, ?_, hTagged.target_tag⟩
  refine Finset.mem_filter.mpr
    ⟨Finset.mem_univ target, ?_, ?_, .refl⟩
  · rw [hTagged.target_tag]
    exact hTagged.start_ne_zero
  · exact fun hCarrier => hCarrier.2 rfl

/- A pointer that may be followed leads to back references. -/
theorem backRefs_of_pointer
    {a : jlong}
    (hPointer : IsPointer m tags a) :
    tags.backRefs m a = some (tags.recorded m a) := by
  rcases exists_pointerToGcTag hPointer with ⟨t, hT⟩
  rw [GcTags.recorded_eq]
  unfold GcTags.backRefs
  rw [hT]
  rfl

omit [DecidableEq O] in
/- No tag of the graph was deleted. -/
theorem searchTags_backRefs
    [Fintype O]
    (hTagged :
      WellTagged h m refClasses target start tag tags)
    (hApart : Apart h refClasses target)
    (number : Int32)
    (fuel : Nat) :
    searchTags (tags.backRefs m) start number fuel =
      search (tags.recorded m) start number fuel := by
  apply searchTags_eq_search
    (backReferenceGraph hTagged hApart) _
    (start_mem_backReferenceGraph hTagged hApart)
  intro t hMem
  rcases mem_backReferenceGraph hTagged hApart hMem with
    ⟨_, o, hO, _, _⟩
  rw [← hO]
  exact backRefs_of_pointer (hTagged.pointer o)

omit [DecidableEq O] in
/- The target does not share its tag. -/
theorem WellTagged.start_ne_shared
    (hTagged :
      WellTagged h m refClasses target start tag tags) :
    start ≠ m.weakSoftReferenceTag := by
  intro hEq
  have hCarrier :=
    (hTagged.shared target).mp
      (hTagged.target_tag.trans hEq)
  exact hCarrier.2 rfl

omit [DecidableEq O] in
/- The outcome without a found root. -/
theorem WellTagged.traced_none
    (hTagged :
      WellTagged h m refClasses target start tag tags) :
    Traced h m target ⟨tag, tags, start, none⟩ := by
  refine ⟨hTagged.target_tag, hTagged.ne_root, ?_, ?_, ?_,
    Or.inl rfl⟩
  · intro t hMem _
    rw [List.mem_singleton.mp hMem]
    refine ⟨target, hTagged.target_tag, ?_⟩
    intro p hSame
    refine (hTagged.inj target p ?_ ?_ ?_).symm
    · rw [hTagged.target_tag]
      exact hTagged.start_ne_zero
    · rw [hTagged.target_tag]
      exact hTagged.start_ne_shared
    · exact hTagged.target_tag.trans hSame.symm
  · intro t hMem _
    rw [List.mem_singleton.mp hMem]
    apply exists_pointerToGcTag
    rw [← hTagged.target_tag]
    exact hTagged.pointer target
  · intro p hMem hNeP
    refine ⟨_, backRefs_of_pointer (hTagged.pointer p), ?_⟩
    intro info hInfo
    have hEq : tag p = start := List.mem_singleton.mp hMem
    exact Or.inl (hTagged.denotes hNeP
      (fun hShared => hTagged.start_ne_shared
        (hEq.symm.trans hShared))
      hInfo)

omit [DecidableEq O] in
/-
  The outcome with assembled paths whose tags are on objects,
  the shared one not among them.
-/
theorem WellTagged.traced_of_owned
    (hTagged :
      WellTagged h m refClasses target start tag tags)
    {prevTag : jlong → Option jlong}
    {depth : jlong → Nat}
    (hTree : PrevTree (tags.recorded m) start prevTag depth)
    {paths : Paths}
    (hAssembled :
      Assembled (tags.recorded m) start prevTag paths)
    (hOwned :
      ∀ t ∈ paths.tags,
        t ≠ 0 ∧ t ≠ m.weakSoftReferenceTag ∧
          ∃ o, tag o = t) :
    Traced h m target ⟨tag, tags, start, some paths⟩ := by
  have hStart : start ≠ rootTag := by
    rw [← hTagged.target_tag]
    exact hTagged.ne_root target
  have hRecorded := hAssembled.recorded
  have hRequested :
      ∀ t,
        t ∈ List.replicate paths.nodesToPathNum.length 0 ++
            paths.tags →
          t ≠ 0 → t ∈ paths.tags := by
    intro t hMem hNe
    rcases List.mem_append.mp hMem with hZero | hTag
    · exact absurd (List.eq_of_mem_replicate hZero) hNe
    · exact hTag
  have hNotRoot :
      ∀ t ∈ paths.tags, t ≠ rootTag :=
    fun t hMem =>
      hTree.ne_rootTag hStart (hRecorded.discovered t hMem)
  refine ⟨hTagged.target_tag, hTagged.ne_root, ?_, ?_, ?_,
    Or.inr ?_⟩
  · intro t hMem hNe
    rcases hOwned t (hRequested t hMem hNe) with
      ⟨_, hNotShared, o, rfl⟩
    exact ⟨o, rfl, fun p hSame =>
      (hTagged.inj o p hNe hNotShared hSame.symm).symm⟩
  · intro t hMem hNe
    rcases hOwned t (hRequested t hMem hNe) with
      ⟨_, _, o, rfl⟩
    exact exists_pointerToGcTag (hTagged.pointer o)
  · intro o hMem hNe
    have hTag := hRequested (tag o) hMem hNe
    rcases Option.ne_none_iff_exists'.mp
        ((hRecorded.keys _).mp hTag) with ⟨infos, hInfos⟩
    refine ⟨infos, hInfos, ?_⟩
    intro info hInfo
    rcases hRecorded.shown _ infos hInfos info hInfo with
      ⟨hBack, _⟩ | ⟨_, hKind, hTagMem⟩
    · exact Or.inl
        (hTagged.denotes hNe (hOwned _ hTag).2.1 hBack)
    · exact Or.inr ⟨hKind, hNotRoot _ hTagMem⟩
  · intro t hMem hNe
    have hTag := hRequested t hMem hNe
    rcases hAssembled.fromStart t hTag with
      ⟨hStartMem, hChain⟩
    refine ⟨⟨List.mem_append_right _ hStartMem,
      hTagged.start_ne_zero⟩, ?_, hChain,
      hRecorded.rooted t hTag⟩
    rintro t' ⟨hNeRoot, infos, hInfos, info, hInfo, rfl⟩
    have hMem' : info.tag ∈ paths.tags := by
      rcases hRecorded.shown _ infos hInfos info hInfo with
        ⟨_, hRoot | hIn⟩ | ⟨_, _, hIn⟩
      · exact absurd hRoot hNeRoot
      · exact hIn
      · exact hIn
    exact ⟨List.mem_append_right _ hMem',
      (hOwned _ hMem').1⟩

omit [DecidableEq O] in
theorem WellTagged.traced_some
    [Fintype O]
    (hTagged :
      WellTagged h m refClasses target start tag tags)
    (hApart : Apart h refClasses target)
    {prevTag : jlong → Option jlong}
    {depth : jlong → Nat}
    (hTree : PrevTree (tags.recorded m) start prevTag depth)
    (hTags :
      ∀ t, prevTag t ≠ none →
        t ∈ (backReferenceGraph hTagged hApart).tags)
    {paths : Paths}
    (hAssembled :
      Assembled (tags.recorded m) start prevTag paths) :
    Traced h m target ⟨tag, tags, start, some paths⟩ := by
  apply hTagged.traced_of_owned hTree hAssembled
  intro t hMem
  rcases mem_backReferenceGraph hTagged hApart
      (hTags t (hAssembled.recorded.discovered t hMem)) with
    ⟨hNe, o, hTag, hNotShared, _⟩
  exact ⟨hNe, hNotShared, o, hTag⟩

/-
  The paths are built for what a search has found, if any
  root was found.
-/
inductive Built
    (m : Addresses)
    (tag : O → jlong)
    (tags : GcTags)
    (start : jlong)
    (objectsNumber : Int32)
    (found : Search) : Outcome O → Prop
  | alone :
      found.foundRoots = [] →
        Built m tag tags start objectsNumber found
          ⟨tag, tags, start, none⟩
  | paths {paths : Paths} :
      found.foundRoots ≠ [] →
        (∃ n, ∀ fuel, n ≤ fuel →
          createPaths (tags.recorded m) found.prevTag start
            objectsNumber fuel found.foundRoots =
              some paths) →
          Assembled (tags.recorded m) start found.prevTag
              paths →
            Built m tag tags start objectsNumber found
              ⟨tag, tags, start, some paths⟩

omit [DecidableEq O] in
theorem Explored.exists_built
    {number : Int32}
    {depth : jlong → Nat}
    {found : Search}
    (hTagged :
      WellTagged h m refClasses target start tag tags)
    (hExplored :
      Explored (tags.recorded m) start number depth found)
    (objectsNumber : Int32) :
    ∃ c, Built m tag tags start objectsNumber found c := by
  by_cases hNone : found.foundRoots = []
  · exact ⟨_, Built.alone hNone⟩
  · have hStart : start ≠ rootTag := by
      rw [← hTagged.target_tag]
      exact hTagged.ne_root target
    have hRoots :
        ∀ t ∈ found.foundRoots,
          hasGcRoot (tags.recorded m) t = true ∧
            found.prevTag t ≠ none :=
      fun t hMem =>
        ⟨(hExplored.found.rootAt t hMem).1,
          hExplored.discovered hMem⟩
    rcases createPaths_assembled hExplored.tree hStart
        objectsNumber hRoots with
      ⟨paths, hPaths, hAssembled⟩
    exact ⟨_, Built.paths hNone hPaths hAssembled⟩

/- The agent gets as far as what is built. -/
theorem Built.collect
    {pathsNumber objectsNumber : Int32}
    {tags tags' : GcTags}
    {reports : List (Report O)}
    {found : Search}
    {c : Outcome O}
    {n : Nat}
    (hUser :
      (createTags h m refClasses target tags
        reports).2.user = some tags')
    (hSearch :
      ∀ fuel, n ≤ fuel →
        searchTags (tags'.backRefs m)
            (createTags h m refClasses target tags
              reports).1 pathsNumber fuel = some found)
    (hBuilt :
      Built m
        (createTags h m refClasses target tags
          reports).2.tag tags'
        (createTags h m refClasses target tags reports).1
        objectsNumber found c) :
    ∃ n, ∀ fuel, n ≤ fuel →
      collectPathsToClosestGcRoots h m refClasses target
        pathsNumber objectsNumber tags reports fuel =
          some c := by
  cases hBuilt with
  | alone hNone =>
      refine ⟨n, ?_⟩
      intro fuel hFuel
      simp [collectPathsToClosestGcRoots, hUser,
        hSearch fuel hFuel, hNone]
  | paths hSome hPaths _ =>
      rcases hPaths with ⟨k, hPaths⟩
      refine ⟨max n k, ?_⟩
      intro fuel hFuel
      simp [collectPathsToClosestGcRoots, hUser,
        hSearch fuel (by omega), hSome,
        hPaths fuel (by omega)]

/- The agent gets as far as asking for the objects. -/
theorem exists_outcome
    [Fintype O]
    (m : Addresses)
    (hApart : Apart h refClasses target)
    (pathsNumber objectsNumber : Int32)
    (tags : GcTags)
    {reports : List (Report O)}
    (hReports :
      h.FollowReferences none (collectPaths m)
        (initialTags m refClasses target tags).2 reports) :
    ∃ c n,
      (∀ fuel, n ≤ fuel →
        collectPathsToClosestGcRoots h m refClasses target
          pathsNumber objectsNumber tags reports fuel =
            some c) ∧
      Traced h m target c := by
  rcases createTags_wellTagged m tags hReports with
    ⟨tags', hUser, hTagged⟩
  have hStart :=
    start_mem_backReferenceGraph hTagged hApart
  rcases exists_explored hStart pathsNumber with
    ⟨found, depth, ⟨n, hSearch⟩, hExplored⟩
  have hFound :
      ∀ fuel, n ≤ fuel →
        searchTags (tags'.backRefs m)
            (createTags h m refClasses target tags
              reports).1 pathsNumber fuel = some found :=
    fun fuel hFuel =>
      (searchTags_backRefs hTagged hApart pathsNumber
        fuel).trans (hSearch fuel hFuel)
  have hTags :
      ∀ t, found.prevTag t ≠ none →
        t ∈ (backReferenceGraph hTagged hApart).tags :=
    fun _ hPrev => Explored.mem_tags hStart hExplored hPrev
  rcases Explored.exists_built hTagged hExplored
      objectsNumber with ⟨c, hBuilt⟩
  rcases hBuilt.collect hUser hFound with ⟨k, hCollect⟩
  refine ⟨c, k, hCollect, ?_⟩
  cases hBuilt with
  | alone _ => exact hTagged.traced_none
  | paths _ _ hAssembled =>
      exact hTagged.traced_some hApart hExplored.tree hTags
        hAssembled

omit [DecidableEq O] in
/- JVMTI has an answer, which can be sorted. -/
theorem exists_answered
    [Fintype O]
    (c : Outcome O) :
    ∃ objects, Answered c objects := by
  classical
  let carrying : List O :=
    (Finset.univ.filter (fun o =>
      c.tag o ≠ 0 ∧ c.tag o ∈ c.requested)).toList
  let numberLe : O → O → Bool :=
    fun a b =>
      decide (c.pathNumber (c.tag a) ≤ c.pathNumber (c.tag b))
  have hPerm : (carrying.mergeSort numberLe).Perm carrying :=
    List.mergeSort_perm _ _
  have hSorted :
      (carrying.mergeSort numberLe).Pairwise
        (fun a b => numberLe a b = true) := by
    apply List.pairwise_mergeSort
    · intro a b d hAB hBD
      exact decide_eq_true
        ((of_decide_eq_true hAB).trans
          (of_decide_eq_true hBD))
    · intro a b
      have hTotal :=
        le_total (c.pathNumber (c.tag a))
          (c.pathNumber (c.tag b))
      simpa [numberLe] using hTotal
  refine ⟨carrying.mergeSort numberLe, ⟨?_, ?_⟩, ?_⟩
  · exact hPerm.nodup_iff.mpr (Finset.nodup_toList _)
  · intro o
    rw [hPerm.mem_iff, Finset.mem_toList,
      Finset.mem_filter]
    exact and_iff_right (Finset.mem_univ o)
  · exact hSorted.imp (fun hLe => of_decide_eq_true hLe)

------------------------------------------------------------
-- Class Objects That Share a Tag
------------------------------------------------------------

/- How far the agent has got when it asks for the objects. -/
theorem collectPathsToClosestGcRoots_inv
    {pathsNumber objectsNumber : Int32}
    {reports : List (Report O)}
    {fuel : Nat}
    {c : Outcome O}
    (hCollect :
      collectPathsToClosestGcRoots h m refClasses target
        pathsNumber objectsNumber tags reports fuel =
          some c) :
    let gathered :=
      createTags h m refClasses target tags reports
    ∃ tags' found,
      gathered.2.user = some tags' ∧
      searchTags (tags'.backRefs m) gathered.1 pathsNumber
          fuel = some found ∧
      ((found.foundRoots = [] ∧
          c = ⟨gathered.2.tag, tags', gathered.1, none⟩) ∨
        (found.foundRoots ≠ [] ∧
          ∃ paths,
            createPaths (tags'.recorded m) found.prevTag
                gathered.1 objectsNumber fuel
                found.foundRoots = some paths ∧
              c =
                ⟨gathered.2.tag, tags', gathered.1,
                  some paths⟩)) := by
  unfold collectPathsToClosestGcRoots at hCollect
  generalize createTags h m refClasses target tags reports =
    gathered at hCollect ⊢
  rcases Option.bind_eq_some_iff.mp hCollect with
    ⟨tags', hUser, hRest⟩
  rcases Option.bind_eq_some_iff.mp hRest with
    ⟨found, hFound, hEnd⟩
  refine ⟨tags', found, hUser, hFound, ?_⟩
  by_cases hNone : found.foundRoots = []
  · rw [if_pos hNone] at hEnd
    exact Or.inl ⟨hNone, (Option.some.inj hEnd).symm⟩
  · rw [if_neg hNone] at hEnd
    rcases Option.bind_eq_some_iff.mp hEnd with
      ⟨paths, hPaths, hEq⟩
    exact Or.inr ⟨hNone, paths, hPaths,
      (Option.some.inj hEq).symm⟩

/- A result is about the objects that were asked for. -/
theorem executeOperation_inv
    {pathsNumber objectsNumber : Int32}
    {reports : List (Report O)}
    {fuel : Nat}
    {c : Outcome O}
    {objects : List O}
    {result : Result O}
    (hCollect :
      collectPathsToClosestGcRoots h m refClasses target
        pathsNumber objectsNumber tags reports fuel = some c)
    (hResult :
      executeOperation h m refClasses target pathsNumber
        objectsNumber tags reports objects fuel =
          some result) :
    result.objects = objects ∧
      ∀ (i : Nat) links,
        result.links[i]? = some links →
          ∀ link ∈ links, ∀ j : Nat, link.prevIndex = j →
            ∃ t, getTagToIndex
              (objects.map (fun o => (o, c.tag o))) t =
                some j := by
  unfold executeOperation at hResult
  rw [hCollect] at hResult
  change Roots.createResultObject m c.tags _ _ =
    some result at hResult
  unfold Roots.createResultObject at hResult
  rcases Option.bind_eq_some_iff.mp hResult with
    ⟨links, hLinks, hRest⟩
  rcases Option.bind_eq_some_iff.mp hRest with
    ⟨weak, _, hEq⟩
  have hObjects :
      (objects.map (fun o => (o, c.tag o))).map Prod.fst =
        objects := by
    rw [List.map_map]
    exact List.map_id _
  rw [← Option.some.inj hEq]
  refine ⟨hObjects, ?_⟩
  intro i linksI hGet link hMem j hIndex
  have hMap := StdVector.map_eq_of_mapM hLinks
  have hSome :
      (links.map some)[i]? = some (some linksI) := by
    rw [List.getElem?_map]
    change links[i]? = some linksI at hGet
    rw [hGet]
    rfl
  rw [← hMap, List.getElem?_map] at hSome
  rcases Option.map_eq_some_iff.mp hSome with
    ⟨entry, _, hInfos⟩
  rcases Option.map_eq_some_iff.mp hInfos with
    ⟨infos, _, hCreate⟩
  rw [← hCreate] at hMem
  rcases List.mem_filterMap.mp hMem with
    ⟨info, _, hLink⟩
  by_cases hRoot : info.tag = rootTag
  · rw [if_pos hRoot] at hLink
    rw [← Option.some.inj hLink] at hIndex
    change (-1 : Int) = j at hIndex
    omega
  · rw [if_neg hRoot] at hLink
    rcases Option.map_eq_some_iff.mp hLink with
      ⟨k, hK, hEqLink⟩
    rw [← hEqLink] at hIndex
    have hSame : k = j := Int.ofNat.inj hIndex
    exact ⟨info.tag, hSame ▸ hK⟩

theorem carrier_tag
    {pathsNumber objectsNumber : Int32}
    {reports : List (Report O)}
    (hReports :
      h.FollowReferences none (collectPaths m)
        (initialTags m refClasses target tags).2 reports)
    {fuel : Nat}
    {c : Outcome O}
    (hCollect :
      collectPathsToClosestGcRoots h m refClasses target
        pathsNumber objectsNumber tags reports fuel = some c)
    (o : O)
    (hCarrier : Carrier refClasses target o) :
    c.tag o = m.weakSoftReferenceTag := by
  rcases createTags_wellTagged m tags hReports with
    ⟨tags', _, hTagged⟩
  rcases collectPathsToClosestGcRoots_inv hCollect with
    ⟨_, _, _, _, ⟨_, hEq⟩ | ⟨_, _, _, hEq⟩⟩
  · rw [hEq]
    exact (hTagged.shared o).mpr hCarrier
  · rw [hEq]
    exact (hTagged.shared o).mpr hCarrier

/- No link leads to the first of two such class objects. -/
theorem not_real_of_carriers
    {pathsNumber objectsNumber : Int32}
    {reports : List (Report O)}
    (hReports :
      h.FollowReferences none (collectPaths m)
        (initialTags m refClasses target tags).2 reports)
    {fuel : Nat}
    {c : Outcome O}
    {objects : List O}
    {result : Result O}
    (hCollect :
      collectPathsToClosestGcRoots h m refClasses target
        pathsNumber objectsNumber tags reports fuel = some c)
    (hResult :
      executeOperation h m refClasses target pathsNumber
        objectsNumber tags reports objects fuel =
          some result)
    {i j : Nat}
    {a b : O}
    (hLt : i < j)
    (hA : objects[i]? = some a)
    (hB : objects[j]? = some b)
    (hCarrierA : Carrier refClasses target a)
    (hCarrierB : Carrier refClasses target b) :
    ¬ Real h target result := by
  intro hReal
  have hShared := carrier_tag hReports hCollect
  have hTagA := hShared a hCarrierA
  have hTagB := hShared b hCarrierB
  rcases executeOperation_inv hCollect hResult with
    ⟨hObjects, hLinks⟩
  have hLtI : i < result.objects.length := by
    rw [hObjects]
    exact (List.getElem?_eq_some_iff.mp hA).1
  rcases hReal.onPath i hLtI with ⟨t, hTarget, hChain, _⟩
  rcases Relation.ReflTransGen.cases_tail hChain with
    hSame | ⟨k, _, links, hGet, link, hMem, hIndex⟩
  · rw [hObjects, ← hSame, hA] at hTarget
    exact hCarrierA.2 (Option.some.inj hTarget)
  · rcases hLinks k links hGet link hMem i hIndex with
      ⟨t', hT'⟩
    rcases getTagToIndex_eq_some_iff.mp hT' with
      ⟨⟨o, hO⟩, hMax⟩
    rw [List.getElem?_map, hA] at hO
    have hEq : (a, c.tag a) = (o, t') := Option.some.inj hO
    have hLe := hMax j b (by
      rw [List.getElem?_map, hB]
      have hT := congrArg Prod.snd hEq
      change c.tag a = t' at hT
      rw [← hT, hTagA, ← hTagB]
      rfl)
    omega

/- A result that lists two such class objects is not real. -/
theorem not_real_of_two
    {pathsNumber objectsNumber : Int32}
    {reports : List (Report O)}
    (hReports :
      h.FollowReferences none (collectPaths m)
        (initialTags m refClasses target tags).2 reports)
    {fuel : Nat}
    {c : Outcome O}
    {objects : List O}
    {result : Result O}
    (hCollect :
      collectPathsToClosestGcRoots h m refClasses target
        pathsNumber objectsNumber tags reports fuel = some c)
    (hResult :
      executeOperation h m refClasses target pathsNumber
        objectsNumber tags reports objects fuel =
          some result)
    {a b : O}
    (hA : a ∈ objects)
    (hB : b ∈ objects)
    (hNe : a ≠ b)
    (hCarrierA : Carrier refClasses target a)
    (hCarrierB : Carrier refClasses target b) :
    ¬ Real h target result := by
  rcases List.mem_iff_getElem?.mp hA with ⟨i, hI⟩
  rcases List.mem_iff_getElem?.mp hB with ⟨j, hJ⟩
  rcases Nat.lt_trichotomy i j with hLt | hEq | hGt
  · exact not_real_of_carriers hReports hCollect hResult
      hLt hI hJ hCarrierA hCarrierB
  · rw [hEq, hJ] at hI
    exact absurd (Option.some.inj hI).symm hNe
  · exact not_real_of_carriers hReports hCollect hResult
      hGt hJ hI hCarrierB hCarrierA

/- The result of a traced outcome is real. -/
theorem Traced.executes
    {c : Outcome O}
    {objects : List O}
    (hTraced : Traced h m target c)
    (hAnswered : Answered c objects)
    {pathsNumber objectsNumber : Int32}
    {reports : List (Report O)} :
    ∃ result, Real h target result ∧
      ∀ fuel,
        collectPathsToClosestGcRoots h m refClasses target
            pathsNumber objectsNumber tags reports fuel =
              some c →
          executeOperation h m refClasses target pathsNumber
            objectsNumber tags reports objects fuel =
              some result := by
  rcases hTraced.createResultObject hAnswered with
    ⟨weak, hCreate⟩
  refine ⟨_, hTraced.real hAnswered weak, ?_⟩
  intro fuel hCollect
  simp [executeOperation, hCollect, hCreate]

end Action

------------------------------------------------------------
-- Two Reference Classes
------------------------------------------------------------

def ascendingAddresses : Addresses where
  weakSoftReferenceTag := 1
  ne_zero := Int.one_ne_zero
  ne_root := one_ne_rootTag
  alloc := ascending 1 reserved_le_one

def noTags : GcTags where
  weakSoftReferenceTag := GcTag.ofWeakSoftReachable true
  store := Store.empty
  rootsTagBalance := 0

/-
  A thread refers to the class object 0, whose static field
  refers to object 1.  The class object 2 is not connected
  with them.  Object 3 is `java.lang.Class`.
-/
def twoReferenceClasses : Heap (Fin 4) where
  roots := [⟨.thread, .none, 0⟩]
  references := fun o =>
    if o = 0 then [⟨.staticField, .index 0, 1⟩] else []
  size := fun _ => 16
  classOf := fun _ => 3
  roots_isRoot := by decide
  references_isHeld := by decide
  size_pos := fun _ => sixteen_pos

def twoReferenceClassesReports : List (Report (Fin 4)) :=
  [⟨none, ⟨.thread, .none, 0⟩⟩,
    ⟨some 0, ⟨.staticField, .index 0, 1⟩⟩]

end Roots

end MemoryAgent
