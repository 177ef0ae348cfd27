import Mathlib.Algebra.Group.Int.Defs
import Mathlib.Data.List.Nodup
import MemoryAgent.Sizes.ViaDominatorTree.Program

/-
  Objects with positive tags are the vertices of the heap
  dump.

  Key definitions include:
    * `ViaDominatorTree.VertexTags`
    * `ViaDominatorTree.StartTags`

  Main results:
    * `ViaDominatorTree.VertexTags.addNewVertex`
    * `ViaDominatorTree.tagObjects_startTags`
-/

------------------------------------------------------------
-- Vertices
------------------------------------------------------------

namespace MemoryAgent

namespace ViaDominatorTree

open StdVector DominatorTree

variable {N : Type}

/-
  The positive tags are the vertices above 0, one for each
  object, and the dump has the sizes of these objects.
-/
structure VertexTags
    (h : Heap N)
    (tag : N → jlong)
    (info : HeapDumpInfo) : Prop where
  current : info.currentTag = info.graph.length
  sizes_length : info.sizes.length = info.graph.length
  pos : 0 < info.graph.length
  lt : ∀ o, tag o < info.currentTag
  inj : ∀ o p, 0 < tag o → tag o = tag p → o = p
  surj :
    ∀ k : jlong, 0 < k → k < info.currentTag →
      ∃ o, tag o = k
  master : read info.sizes 0 = some 0
  size :
    ∀ o, 0 < tag o → read info.sizes (tag o) = some (h.size o)

theorem not_le_toSizeT
    {n : Nat}
    {i : jlong}
    (hRange : InRange n i) :
    toSizeT i = i.toNat ∧ ¬ n ≤ toSizeT i := by
  rcases hRange with ⟨hNonneg, hLt⟩
  have hEq : toSizeT i = i.toNat :=
    if_neg (not_lt.mpr hNonneg)
  refine ⟨hEq, ?_⟩
  rw [hEq]
  omega

/- Numbers of vertices do not make the dump throw. -/
theorem visitStartVertex_eq
    {info : HeapDumpInfo}
    {vertex : jlong}
    (hRange :
      InRange info.wasVisitedDuringFirstTraversal.length
        vertex) :
    info.visitStartVertex vertex =
      .ok { info with
        wasVisitedDuringFirstTraversal :=
          info.wasVisitedDuringFirstTraversal.set
            vertex.toNat true } := by
  rcases not_le_toSizeT hRange with ⟨hEq, hNot⟩
  unfold HeapDumpInfo.visitStartVertex
  rw [if_neg hNot, hEq]

theorem addNeighbour_eq
    {info : HeapDumpInfo}
    {parent : jlong}
    (neighbour : jlong)
    (hRange : InRange info.graph.length parent) :
    info.addNeighbour parent neighbour =
      .ok { info with
        graph :=
          info.graph.modify parent.toNat
            (fun neighbours =>
              neighbours ++ [neighbour]) } := by
  rcases not_le_toSizeT hRange with ⟨hEq, hNot⟩
  unfold HeapDumpInfo.addNeighbour
  rw [if_neg hNot, hEq]

theorem addNeighbour_currentTag
    {info info' : HeapDumpInfo}
    {u v : jlong}
    (hAdd : info.addNeighbour u v = .ok info') :
    info'.currentTag = info.currentTag := by
  unfold HeapDumpInfo.addNeighbour at hAdd
  split at hAdd
  · cases hAdd
  · cases hAdd
    rfl

variable [DecidableEq N]

/- Giving an object without vertex a new one. -/
theorem VertexTags.addNewVertex
    {h : Heap N}
    {tag : N → jlong}
    {info : HeapDumpInfo}
    (hTags : VertexTags h tag info)
    {o : N}
    (hNew : tag o ≤ 0) :
    VertexTags h (Function.update tag o info.currentTag)
      (info.addNewVertex (h.size o)).2 := by
  have hCurrent := hTags.current
  have hPos := hTags.pos
  have hLast : (info.sizes.length : jlong) = info.currentTag := by
    rw [hTags.sizes_length, hCurrent]
  constructor
  · change info.currentTag + 1 = (info.graph ++ [[]]).length
    rw [List.length_append, hCurrent]
    rfl
  · change (info.sizes ++ [h.size o]).length =
      (info.graph ++ [[]]).length
    rw [List.length_append, List.length_append,
      hTags.sizes_length]
    rfl
  · change 0 < (info.graph ++ [[]]).length
    rw [List.length_append]
    omega
  · intro p
    change Function.update tag o info.currentTag p <
      info.currentTag + 1
    by_cases hEq : p = o
    · rw [hEq, Function.update_self]
      exact Int.lt_succ _
    · rw [Function.update_of_ne hEq]
      exact (hTags.lt p).trans (Int.lt_succ _)
  · intro p q hPosP hEq
    have hLtP := hTags.lt p
    have hLtQ := hTags.lt q
    by_cases hP : p = o
    · by_cases hQ : q = o
      · rw [hP, hQ]
      · rw [hP, Function.update_self,
          Function.update_of_ne hQ] at hEq
        rw [hEq] at hLtQ
        exact absurd hLtQ (lt_irrefl _)
    · rw [Function.update_of_ne hP] at hPosP hEq
      by_cases hQ : q = o
      · rw [hQ, Function.update_self] at hEq
        rw [hEq] at hLtP
        exact absurd hLtP (lt_irrefl _)
      · rw [Function.update_of_ne hQ] at hEq
        exact hTags.inj p q hPosP hEq
  · intro k hPosK hLt
    change k < info.currentTag + 1 at hLt
    by_cases hEq : k = info.currentTag
    · exact ⟨o, by rw [hEq, Function.update_self]⟩
    · rcases hTags.surj k hPosK
          (lt_of_le_of_ne (Int.lt_add_one_iff.mp hLt) hEq)
        with ⟨p, hP⟩
      have hNe : p ≠ o := by
        intro hEqP
        rw [← hP, hEqP] at hPosK
        exact absurd hNew (not_le.mpr hPosK)
      exact ⟨p, by rw [Function.update_of_ne hNe, hP]⟩
  · exact read_append_left _ hTags.master
  · intro p hPosP
    change read (info.sizes ++ [h.size o])
      (Function.update tag o info.currentTag p) = _
    by_cases hEq : p = o
    · rw [hEq, Function.update_self, ← hLast]
      exact read_append_last _ _
    · rw [Function.update_of_ne hEq] at hPosP ⊢
      exact read_append_left _ (hTags.size p hPosP)

------------------------------------------------------------
-- Start Objects
------------------------------------------------------------

/- The tags and the dump while start objects are numbered. -/
structure StartLoop
    (h : Heap N)
    (tag : N → jlong)
    (done : List N)
    (s : Tagged N jlong HeapDumpInfo) : Prop where
  vertices : VertexTags h s.tag s.user
  numbered : ∀ o ∈ done, 0 < s.tag o
  untouched : ∀ o, o ∉ done → s.tag o = tag o
  no_edges : ∀ ns ∈ s.user.graph, ns = []

/- An object that was listed before keeps its number. -/
theorem StartLoop.initAndSetTag_of_mem
    {h : Heap N}
    {tag : N → jlong}
    {done : List N}
    {s : Tagged N jlong HeapDumpInfo}
    (hLoop : StartLoop h tag done s)
    {o : N}
    (hDone : o ∈ done) :
    initAndSetTag h s o = s := by
  have hPos := hLoop.numbered o hDone
  have hNe : s.tag o ≠ 0 ∧ s.tag o ≠ objectOfClassTag := by
    constructor
    · exact hPos.ne'
    · intro hEq
      rw [hEq] at hPos
      exact absurd hPos (by decide)
  exact if_pos hNe

/- Another one gets a new vertex. -/
theorem StartLoop.initAndSetTag_of_notMem
    {h : Heap N}
    {tag : N → jlong}
    {done : List N}
    {s : Tagged N jlong HeapDumpInfo}
    (hLoop : StartLoop h tag done s)
    {o : N}
    (hDone : o ∉ done)
    (hTag : tag o = 0 ∨ tag o = objectOfClassTag) :
    s.tag o ≤ 0 ∧
    initAndSetTag h s o =
      { s.setTag o s.user.currentTag with
        user := (s.user.addNewVertex (h.size o)).2 } := by
  have hEq := hLoop.untouched o hDone
  constructor
  · rw [hEq]
    rcases hTag with hZero | hClass
    · exact hZero.le
    · rw [hClass]
      decide
  · apply if_neg
    rw [hEq]
    tauto

theorem StartLoop.step
    {h : Heap N}
    {tag : N → jlong}
    {done : List N}
    {s : Tagged N jlong HeapDumpInfo}
    (hLoop : StartLoop h tag done s)
    {o : N}
    (hTag : tag o = 0 ∨ tag o = objectOfClassTag) :
    StartLoop h tag (done ++ [o]) (initAndSetTag h s o) := by
  by_cases hDone : o ∈ done
  · have hPos := hLoop.numbered o hDone
    rw [hLoop.initAndSetTag_of_mem hDone]
    refine ⟨hLoop.vertices, ?_, ?_, hLoop.no_edges⟩
    · intro p hMem
      rcases List.mem_append.mp hMem with hOld | hNew
      · exact hLoop.numbered p hOld
      · rw [List.mem_singleton.mp hNew]
        exact hPos
    · intro p hNot
      exact hLoop.untouched p
        (fun hMem => hNot (List.mem_append_left _ hMem))
  · rcases hLoop.initAndSetTag_of_notMem hDone hTag with
      ⟨hNew, hEq⟩
    have hVertices := hLoop.vertices.addNewVertex hNew
    rw [hEq]
    refine ⟨hVertices, ?_, ?_, ?_⟩
    · intro p hMem
      change 0 < Function.update s.tag o
        s.user.currentTag p
      have hCurrent : (0 : jlong) < s.user.currentTag := by
        rw [hLoop.vertices.current]
        exact Int.natCast_pos.mpr hLoop.vertices.pos
      by_cases hEqP : p = o
      · rw [hEqP, Function.update_self]
        exact hCurrent
      · rw [Function.update_of_ne hEqP]
        rcases List.mem_append.mp hMem with hOld | hLast
        · exact hLoop.numbered p hOld
        · exact absurd (List.mem_singleton.mp hLast) hEqP
    · intro p hNot
      have hNe : p ≠ o := by
        intro hEqP
        exact hNot (List.mem_append_right _
          (List.mem_singleton.mpr hEqP))
      change Function.update s.tag o s.user.currentTag p = _
      rw [Function.update_of_ne hNe]
      exact hLoop.untouched p
        (fun hMem => hNot (List.mem_append_left _ hMem))
    · intro ns hMem
      rcases List.mem_append.mp hMem with hOld | hLast
      · exact hLoop.no_edges ns hOld
      · exact List.mem_singleton.mp hLast

theorem startLoop_init
    {h : Heap N}
    {objects : List N}
    {tag : N → jlong}
    (hStart :
      ∀ o ∈ objects, tag o = 0 ∨ tag o = objectOfClassTag)
    (hOthers : ∀ o, o ∉ objects → tag o = 0) :
    StartLoop h tag [] ⟨tag, HeapDumpInfo.initial⟩ := by
  have hTag : ∀ o, tag o ≤ 0 := by
    intro o
    by_cases hMem : o ∈ objects
    · rcases hStart o hMem with hZero | hClass
      · exact hZero.le
      · rw [hClass]
        decide
    · exact (hOthers o hMem).le
  refine ⟨⟨rfl, rfl, Nat.zero_lt_one, ?_, ?_, ?_, rfl,
    ?_⟩, ?_, fun _ _ => rfl, ?_⟩
  · intro o
    exact (hTag o).trans_lt Int.one_pos
  · intro o p hPos _
    exact absurd (hTag o) (not_le.mpr hPos)
  · intro k hPos hLt
    have hOne : k < 1 := hLt
    exact absurd hOne (not_lt.mpr hPos)
  · intro o hPos
    exact absurd (hTag o) (not_le.mpr hPos)
  · intro o hMem
    exact absurd hMem List.not_mem_nil
  · intro ns hMem
    exact List.mem_singleton.mp hMem

theorem StartLoop.foldl
    {h : Heap N}
    {tag : N → jlong}
    (objects : List N)
    {done : List N}
    {s : Tagged N jlong HeapDumpInfo}
    (hLoop : StartLoop h tag done s)
    (hTag :
      ∀ o ∈ objects, tag o = 0 ∨ tag o = objectOfClassTag) :
    StartLoop h tag (done ++ objects)
      (objects.foldl (initAndSetTag h) s) := by
  induction objects generalizing done s with
  | nil =>
      rw [List.append_nil]
      exact hLoop
  | cons o objects ih =>
      have hStep :=
        hLoop.step (hTag o List.mem_cons_self)
      have hRest := ih hStep
        (fun p hMem => hTag p (List.mem_cons_of_mem o hMem))
      rw [List.append_assoc] at hRest
      exact hRest

/-
  The start objects carry the tags from 1 up to the last
  start tag, the array its own tag, and the other objects
  none.
-/
structure StartTags
    (h : Heap N)
    (array : N)
    (objects : List N)
    (s : Tagged N jlong HeapDumpInfo) : Prop where
  vertices : VertexTags h s.tag s.user
  array_tag : s.tag array = mockReferrerTag
  start : ∀ o ∈ objects, 0 < s.tag o
  others : ∀ o, o ∉ objects → o ≠ array → s.tag o = 0
  last : s.user.lastStartTag = s.user.currentTag - 1
  unvisited :
    s.user.wasVisitedDuringFirstTraversal =
      List.replicate s.user.graph.length false
  no_edges : ∀ ns ∈ s.user.graph, ns = []

theorem tagObjects_startTags
    {h : Heap N}
    {array : N}
    {objects : List N}
    {tag : N → jlong}
    (hArray : array ∉ objects)
    (hStart :
      ∀ o ∈ objects, tag o = 0 ∨ tag o = objectOfClassTag)
    (hOthers : ∀ o, o ∉ objects → tag o = 0) :
    StartTags h array objects
      (tagObjects h array objects tag) := by
  have hInit := startLoop_init (h := h) hStart hOthers
  have hLoop := hInit.foldl objects hStart
  rw [List.nil_append] at hLoop
  let s : Tagged N jlong HeapDumpInfo :=
    objects.foldl (initAndSetTag h)
      ⟨tag, HeapDumpInfo.initial⟩
  have hZero : s.tag array = 0 := by
    rw [hLoop.untouched array hArray]
    exact hOthers array hArray
  have hOther :
      ∀ o, o ≠ array →
        (tagObjects h array objects tag).tag o = s.tag o :=
    fun o hNe => Tagged.setTag_tag_of_ne _ _ hNe
  have hSelf :
      (tagObjects h array objects tag).tag array =
        mockReferrerTag :=
    Tagged.setTag_tag_self _ _ _
  have hPosNe :
      ∀ o, 0 < (tagObjects h array objects tag).tag o →
        o ≠ array := by
    intro o hPos hEq
    rw [hEq, hSelf] at hPos
    exact absurd hPos (by decide)
  have hVertices : VertexTags h s.tag s.user :=
    hLoop.vertices
  have hCurrent :
      s.user.currentTag.toNat = s.user.graph.length := by
    rw [hVertices.current]
    exact Int.toNat_natCast _
  constructor
  · refine ⟨hVertices.current, hVertices.sizes_length,
      hVertices.pos, ?_, ?_, ?_, hVertices.master, ?_⟩
    · intro o
      by_cases hEq : o = array
      · rw [hEq, hSelf]
        have hLt := hVertices.lt array
        rw [hZero] at hLt
        exact lt_trans (by decide) hLt
      · rw [hOther o hEq]
        exact hVertices.lt o
    · intro o p hPos hEq
      have hNeO := hPosNe o hPos
      have hNeP := hPosNe p (hEq ▸ hPos)
      rw [hOther o hNeO] at hPos hEq
      rw [hOther p hNeP] at hEq
      exact hVertices.inj o p hPos hEq
    · intro k hPos hLt
      rcases hVertices.surj k hPos hLt with ⟨o, hO⟩
      have hNe : o ≠ array := by
        intro hEq
        rw [hEq, hZero] at hO
        rw [← hO] at hPos
        exact absurd hPos (lt_irrefl _)
      exact ⟨o, (hOther o hNe).trans hO⟩
    · intro o hPos
      have hNe := hPosNe o hPos
      rw [hOther o hNe] at hPos ⊢
      exact hVertices.size o hPos
  · exact hSelf
  · intro o hMem
    have hNe : o ≠ array := by
      intro hEq
      exact hArray (hEq ▸ hMem)
    rw [hOther o hNe]
    exact hLoop.numbered o hMem
  · intro o hNot hNe
    rw [hOther o hNe]
    exact (hLoop.untouched o hNot).trans (hOthers o hNot)
  · rfl
  · exact congrArg (fun n => List.replicate n false) hCurrent
  · exact hLoop.no_edges

end ViaDominatorTree

end MemoryAgent
