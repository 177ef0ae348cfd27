import Mathlib.Algebra.GroupWithZero.Nat
import Mathlib.Algebra.Ring.Int.Defs
import Mathlib.Data.Fintype.Basic
import Mathlib.Data.Fintype.Pi
import Mathlib.Logic.Function.Basic
import Mathlib.Logic.Relation
import MemoryAgent.Graph.Worklist

/-
  The heap as JVMTI shows it to the agent.

  A heap has root references and, for every object, the
  references it holds.  `FollowReferences` reports the root
  references first and then every reference of each object
  that some callback asked to visit, in an order that the
  caller of the model supplies.

  Key definitions include:
    * `HeapReferenceKind`
    * `Heap`
    * `Report`
    * `Heap.FollowReferences`
    * `Heap.followReferences`
    * `Heap.ReachedAvoiding`
    * `Heap.Retained`
-/

------------------------------------------------------------
-- References
------------------------------------------------------------

namespace MemoryAgent

/- A signed 64-bit integer of JNI. -/
abbrev jlong :=
  Int

/-
  `jvmtiHeapReferenceKind`.  The last constructor is the
  value 42 that the agent casts to this type.
-/
inductive HeapReferenceKind where
  | «class»
  | field
  | arrayElement
  | classLoader
  | signers
  | protectionDomain
  | interface
  | staticField
  | constantPool
  | superclass
  | jniGlobal
  | systemClass
  | monitor
  | stackLocal
  | jniLocal
  | thread
  | other
  | memoryAgentTruncate
deriving DecidableEq, Repr

namespace HeapReferenceKind

/- The kinds that JVMTI documents as heap roots. -/
def isRoot : HeapReferenceKind → Bool
| .jniGlobal => true
| .systemClass => true
| .monitor => true
| .stackLocal => true
| .jniLocal => true
| .thread => true
| .other => true
| _ => false

/- The kinds of references that objects hold. -/
def isHeld : HeapReferenceKind → Bool
| .memoryAgentTruncate => false
| kind => !kind.isRoot

/- The two kinds of root references the agent ignores. -/
def isJni (kind : HeapReferenceKind) : Bool :=
  kind == .jniLocal || kind == .jniGlobal

theorem not_isJni_of_isHeld
    {kind : HeapReferenceKind}
    (hHeld : kind.isHeld = true) :
    kind.isJni = false := by
  cases kind <;> simp_all [isHeld, isRoot, isJni]

end HeapReferenceKind

/-
  The union `jvmtiHeapReferenceInfo`, as far as the agent
  reads it: the index of a field, an array element or a
  constant pool entry, or the place of a local variable.
-/
inductive HeapReferenceInfo where
  | none
  | index (index : Int)
  | stackLocal
      (threadId : jlong) (slot depth : Int) (method : Nat)
  | jniLocal
      (threadId : jlong) (depth : Int) (method : Nat)
deriving DecidableEq, Repr

/- One reference of the heap, held by a root or an object. -/
structure Reference (O : Type) where
  kind : HeapReferenceKind
  info : HeapReferenceInfo
  referee : O
deriving DecidableEq, Repr

/-
  A reference together with its holder, as it is reported;
  a root reference has no holder.
-/
structure Report (O : Type) where
  referrer : Option O
  reference : Reference O
deriving DecidableEq, Repr

instance {O : Type} [DecidableEq O] : LawfulBEq (Report O) :=
  inferInstance

abbrev Report.kind {O : Type} (r : Report O) :=
  r.reference.kind

abbrev Report.referee {O : Type} (r : Report O) :=
  r.reference.referee

------------------------------------------------------------
-- Heaps
------------------------------------------------------------

/-
  A heap: its root references, the references every object
  holds, the size and the class object of every object.
-/
structure Heap (O : Type) where
  roots : List (Reference O)
  references : O → List (Reference O)
  size : O → jlong
  classOf : O → O
  roots_isRoot :
    ∀ r ∈ roots, r.kind.isRoot = true
  references_isHeld :
    ∀ o, ∀ r ∈ references o, r.kind.isHeld = true
  size_pos :
    ∀ o, 0 < size o

/- The objects of small heaps are numbered. -/
instance ofNatObject
    (n i : Nat) : OfNat (Fin (n + 1)) i :=
  ⟨Fin.ofNat (n + 1) i⟩

/- Each of them has 16 bytes. -/
theorem sixteen_pos : (0 : jlong) < 16 := by
  decide

theorem no_references_isHeld :
    ∀ _ : Bool, ∀ r ∈ ([] : List (Reference Bool)),
      r.kind.isHeld = true := by
  decide

namespace Heap

variable {O : Type}

def rootReports (h : Heap O) : List (Report O) :=
  h.roots.map (Report.mk none)

def reportsOf (h : Heap O) (o : O) : List (Report O) :=
  (h.references o).map (Report.mk (some o))

theorem mem_rootReports_iff
    (h : Heap O)
    (r : Report O) :
    r ∈ h.rootReports ↔
      r.referrer = none ∧ r.reference ∈ h.roots := by
  constructor
  · intro hMem
    rcases List.mem_map.mp hMem with ⟨x, hx, rfl⟩
    exact ⟨rfl, hx⟩
  · rintro ⟨hReferrer, hMem⟩
    refine List.mem_map.mpr ⟨r.reference, hMem, ?_⟩
    cases r
    simp_all

theorem mem_reportsOf_iff
    (h : Heap O)
    (o : O)
    (r : Report O) :
    r ∈ h.reportsOf o ↔
      r.referrer = some o ∧
        r.reference ∈ h.references o := by
  constructor
  · intro hMem
    rcases List.mem_map.mp hMem with ⟨x, hx, rfl⟩
    exact ⟨rfl, hx⟩
  · rintro ⟨hReferrer, hMem⟩
    refine List.mem_map.mpr ⟨r.reference, hMem, ?_⟩
    cases r
    simp_all

/- The references of a heap as the edges of a traversal. -/
def graph (h : Heap O) :
    Worklist.Graph O (Report O) where
  target := fun r => r.referee
  out := h.reportsOf

@[simp] theorem graph_target
    (h : Heap O)
    (r : Report O) :
    h.graph.target r = r.referee :=
  rfl

@[simp] theorem graph_out
    (h : Heap O)
    (o : O) :
    h.graph.out o = h.reportsOf o :=
  rfl

------------------------------------------------------------
-- Reachability
------------------------------------------------------------

/- `a` holds a reference to `b`. -/
def Refers (h : Heap O) (a b : O) : Prop :=
  ∃ r ∈ h.references a, r.referee = b

def Reachable (h : Heap O) : O → O → Prop :=
  Relation.ReflTransGen h.Refers

/-
  A root reference other than a JNI local or global one
  leads to the object along a path that avoids `X`, the
  object itself included.
-/
inductive ReachedAvoiding
    (h : Heap O)
    (X : O → Prop) : O → Prop
  | root {r : Reference O} :
      r ∈ h.roots → r.kind.isJni = false →
        ¬ X r.referee → ReachedAvoiding h X r.referee
  | step {a b : O} :
      ReachedAvoiding h X a → h.Refers a b →
        ¬ X b → ReachedAvoiding h X b

/- Reachable from a root that is not a JNI reference. -/
def RootReachable (h : Heap O) (o : O) : Prop :=
  h.ReachedAvoiding (fun _ => False) o

/-
  The objects that would become unreachable with `X`: those
  reachable from `X` that no root outside JNI reaches by a
  path avoiding `X`.
-/
def Retained (h : Heap O) (X : O → Prop) (o : O) : Prop :=
  (∃ x, X x ∧ h.Reachable x o) ∧ ¬ h.ReachedAvoiding X o

/-
  Every path from a root outside JNI reaches `o` only
  through `x`.
-/
def Dominates (h : Heap O) (x o : O) : Prop :=
  h.RootReachable o ∧ ¬ h.ReachedAvoiding (· = x) o

theorem ReachedAvoiding.not_mem
    {h : Heap O}
    {X : O → Prop}
    {o : O}
    (hReached : h.ReachedAvoiding X o) :
    ¬ X o := by
  cases hReached with
  | root _ _ hX => exact hX
  | step _ _ hX => exact hX

/- Avoiding more objects reaches fewer. -/
theorem ReachedAvoiding.mono
    {h : Heap O}
    {X Y : O → Prop}
    {o : O}
    (hSubset : ∀ x, Y x → X x)
    (hReached : h.ReachedAvoiding X o) :
    h.ReachedAvoiding Y o := by
  induction hReached with
  | root hMem hKind hX =>
      exact .root hMem hKind (fun hY => hX (hSubset _ hY))
  | step _ hRefers hX ih =>
      exact .step ih hRefers (fun hY => hX (hSubset _ hY))

/- No path meets an object that is not reached. -/
theorem ReachedAvoiding.around
    {h : Heap O}
    {X : O → Prop}
    {x o : O}
    (hReached : h.ReachedAvoiding X o)
    (hNot : ¬ h.ReachedAvoiding X x) :
    h.ReachedAvoiding (fun p => p = x ∨ X p) o := by
  induction hReached with
  | @root r hMem hKind hX =>
      refine .root hMem hKind ?_
      rintro (hEq | hMemX)
      · exact hNot (hEq ▸ .root hMem hKind hX)
      · exact hX hMemX
  | @step a b hReachedA hRefers hX ih =>
      refine .step ih hRefers ?_
      rintro (hEq | hMemX)
      · exact hNot (hEq ▸ .step hReachedA hRefers hX)
      · exact hX hMemX

/- Every object of `X` is retained by `X`. -/
theorem retained_of_mem
    {h : Heap O}
    {X : O → Prop}
    {x : O}
    (hX : X x) :
    h.Retained X x :=
  ⟨⟨x, hX, .refl⟩, fun hReached => hReached.not_mem hX⟩

/-
  A root-reachable object that no avoiding path reaches is
  reachable from the avoided object.
-/
theorem reachable_of_dominates
    {h : Heap O}
    {x o : O}
    (hDominates : h.Dominates x o) :
    h.Reachable x o := by
  rcases hDominates with ⟨hRoot, hAvoid⟩
  have hEither :
      h.ReachedAvoiding (· = x) o ∨ h.Reachable x o := by
    clear hAvoid
    induction hRoot with
    | @root r hMem hKind _ =>
        by_cases hEq : r.referee = x
        · exact Or.inr (hEq ▸ .refl)
        · exact Or.inl (.root hMem hKind hEq)
    | @step a b _ hRefers _ ih =>
        by_cases hEq : b = x
        · exact Or.inr (hEq ▸ .refl)
        · rcases ih with ih | ih
          · exact Or.inl (.step ih hRefers hEq)
          · exact Or.inr (ih.tail hRefers)
  exact hEither.resolve_left hAvoid

theorem RootReachable.reachable
    {h : Heap O}
    {a b : O}
    (hRoot : h.RootReachable a)
    (hReachable : h.Reachable a b) :
    h.RootReachable b := by
  induction hReachable with
  | refl => exact hRoot
  | tail _ hRefers ih => exact .step ih hRefers (by simp)

theorem RootReachable.around
    {h : Heap O}
    {x o : O}
    (hRoot : h.RootReachable o)
    (hNot : ¬ h.RootReachable x) :
    h.ReachedAvoiding (· = x) o :=
  (ReachedAvoiding.around hRoot hNot).mono
    (fun _ hEq => Or.inl hEq)

/-
  For a root-reachable object, what it retains is what it
  dominates.
-/
theorem retained_iff_dominates
    {h : Heap O}
    {x o : O}
    (hRoot : h.RootReachable x) :
    h.Retained (· = x) o ↔ h.Dominates x o := by
  constructor
  · rintro ⟨⟨y, rfl, hReachable⟩, hAvoid⟩
    exact ⟨hRoot.reachable hReachable, hAvoid⟩
  · intro hDominates
    exact ⟨⟨x, rfl, reachable_of_dominates hDominates⟩,
      hDominates.2⟩

/-
  The nodes a traversal enters from the roots when it avoids
  JNI references and the objects of `X`.
-/
theorem reached_rootReports_iff
    (h : Heap O)
    (X : O → Prop)
    (o : O) :
    Worklist.Reached h.graph
        (fun r => r.kind.isJni = false ∧ ¬ X r.referee)
        h.rootReports o ↔
      h.ReachedAvoiding X o := by
  constructor
  · intro hReached
    induction hReached with
    | @start r hMem hEnter =>
        exact .root ((h.mem_rootReports_iff r).mp hMem).2
          hEnter.1 hEnter.2
    | @step a r _ hMem hEnter ih =>
        exact .step ih
          ⟨r.reference,
            ((h.mem_reportsOf_iff a r).mp hMem).2, rfl⟩
          hEnter.2
  · intro hReached
    induction hReached with
    | @root r hMem hKind hX =>
        change Worklist.Reached h.graph _ _
          (h.graph.target ⟨none, r⟩)
        exact .start
          ((h.mem_rootReports_iff _).mpr ⟨rfl, hMem⟩)
          ⟨hKind, hX⟩
    | @step a b _ hRefers hX ih =>
        rcases hRefers with ⟨r, hMem, rfl⟩
        change Worklist.Reached h.graph _ _
          (h.graph.target ⟨some a, r⟩)
        exact .step ih
          ((h.mem_reportsOf_iff a _).mpr ⟨rfl, hMem⟩)
          ⟨HeapReferenceKind.not_isJni_of_isHeld
            (h.references_isHeld a r hMem), hX⟩

/-
  The nodes a traversal enters from `x` when it stays among
  the objects that only `x` keeps reachable.
-/
theorem reached_reportsOf_iff
    (h : Heap O)
    (x o : O) :
    Worklist.Reached h.graph
        (fun r => r.kind.isJni = false ∧ r.referee ≠ x ∧
          ¬ h.ReachedAvoiding (· = x) r.referee)
        (h.reportsOf x) o ↔
      o ≠ x ∧ h.Retained (· = x) o := by
  constructor
  · intro hReached
    have hReachable :
        h.Reachable x o ∧ o ≠ x ∧
          ¬ h.ReachedAvoiding (· = x) o := by
      induction hReached with
      | @start r hMem hEnter =>
          exact ⟨.single ⟨r.reference,
            ((h.mem_reportsOf_iff x r).mp hMem).2, rfl⟩,
            hEnter.2⟩
      | @step a r _ hMem hEnter ih =>
          exact ⟨ih.1.tail ⟨r.reference,
            ((h.mem_reportsOf_iff a r).mp hMem).2, rfl⟩,
            hEnter.2⟩
    exact ⟨hReachable.2.1,
      ⟨x, rfl, hReachable.1⟩, hReachable.2.2⟩
  · rintro ⟨hNe, ⟨y, rfl, hReachable⟩, hAvoid⟩
    induction hReachable with
    | refl => exact absurd rfl hNe
    | @tail a b _ hRefers ih =>
        have hInside : ¬ h.ReachedAvoiding (· = y) a :=
          fun hReached =>
            hAvoid (.step hReached hRefers hNe)
        rcases hRefers with ⟨r, hMem, rfl⟩
        have hEnter :
            r.kind.isJni = false ∧ r.referee ≠ y ∧
              ¬ h.ReachedAvoiding (· = y) r.referee :=
          ⟨HeapReferenceKind.not_isJni_of_isHeld
            (h.references_isHeld a r hMem), hNe, hAvoid⟩
        change Worklist.Reached h.graph _ _
          (h.graph.target ⟨some a, r⟩)
        by_cases hEq : a = y
        · subst hEq
          exact .start
            ((h.mem_reportsOf_iff a _).mpr ⟨rfl, hMem⟩)
            hEnter
        · exact .step (ih hEq hInside)
            ((h.mem_reportsOf_iff a _).mpr ⟨rfl, hMem⟩)
            hEnter

end Heap

------------------------------------------------------------
-- Tags and Traversals
------------------------------------------------------------

/-
  What a heap callback can change: the tag of every object,
  and the data behind its `userData` pointer.
-/
structure Tagged (O T U : Type) where
  tag : O → T
  user : U

namespace Tagged

variable {O T U : Type}
variable [DecidableEq O]

/- `SetTag` -/
def setTag
    (s : Tagged O T U)
    (o : O)
    (t : T) : Tagged O T U :=
  { s with tag := Function.update s.tag o t }

@[simp] theorem setTag_user
    (s : Tagged O T U)
    (o : O)
    (t : T) :
    (s.setTag o t).user = s.user :=
  rfl

@[simp] theorem setTag_tag_self
    (s : Tagged O T U)
    (o : O)
    (t : T) :
    (s.setTag o t).tag o = t := by
  simp [setTag]

theorem setTag_tag_of_ne
    (s : Tagged O T U)
    {o other : O}
    (t : T)
    (hNe : other ≠ o) :
    (s.setTag o t).tag other = s.tag other := by
  simp [setTag, hNe]

end Tagged

/-
  The arguments of a `jvmtiHeapReferenceCallback`.  The
  referrer's tag is absent for a root reference, and for a
  reference of an object to itself both tag pointers are
  the same.
-/
structure ReferenceArguments (T : Type) where
  refKind : HeapReferenceKind
  refInfo : HeapReferenceInfo
  classTag : T
  referrerClassTag : T
  size : jlong
  tag : T
  referrerTag : Option T
  selfReference : Bool

/-
  A callback returns the new tag of the referee, the new
  user data and its answer.
-/
abbrev HeapReferenceCallback (T U : Type) :=
  ReferenceArguments T → U → T × U × Worklist.Signal

namespace Heap

variable {O T U : Type}
variable [DecidableEq O]

/- The arguments JVMTI passes for one report. -/
def arguments
    [Zero T]
    (h : Heap O)
    (r : Report O)
    (s : Tagged O T U) : ReferenceArguments T where
  refKind := r.reference.kind
  refInfo := r.reference.info
  classTag := s.tag (h.classOf r.referee)
  referrerClassTag :=
    match r.referrer with
    | none => 0
    | some o => s.tag (h.classOf o)
  size := h.size r.referee
  tag := s.tag r.referee
  referrerTag := r.referrer.map s.tag
  selfReference := decide (r.referrer = some r.referee)

/- Run a callback on one report. -/
def invoke
    [Zero T]
    (h : Heap O)
    (callback : HeapReferenceCallback T U) :
    Worklist.Callback (Report O) (Tagged O T U) :=
  fun r s =>
    let answer := callback (h.arguments r s) s.user
    ({ s.setTag r.referee answer.1 with
        user := answer.2.1 }, answer.2.2)

@[simp] theorem invoke_tag
    [Zero T]
    (h : Heap O)
    (callback : HeapReferenceCallback T U)
    (r : Report O)
    (s : Tagged O T U) :
    (h.invoke callback r s).1.tag =
      Function.update s.tag r.referee
        (callback (h.arguments r s) s.user).1 :=
  rfl

@[simp] theorem invoke_user
    [Zero T]
    (h : Heap O)
    (callback : HeapReferenceCallback T U)
    (r : Report O)
    (s : Tagged O T U) :
    (h.invoke callback r s).1.user =
      (callback (h.arguments r s) s.user).2.1 :=
  rfl

@[simp] theorem invoke_signal
    [Zero T]
    (h : Heap O)
    (callback : HeapReferenceCallback T U)
    (r : Report O)
    (s : Tagged O T U) :
    (h.invoke callback r s).2 =
      (callback (h.arguments r s) s.user).2.2 :=
  rfl

/-
  A callback marks with `mark` when it tags the referee of
  every entering report with `mark`, visiting it if it was
  not marked yet, and leaves the others as they are.
-/
theorem marks_of_answers
    [Zero T]
    (h : Heap O)
    (callback : HeapReferenceCallback T U)
    (Inv : Tagged O T U → Prop)
    (Enter : Report O → Prop)
    (mark : T)
    (hInv :
      ∀ r s, Inv s → Inv (h.invoke callback r s).1)
    (hEnter :
      ∀ r s, Inv s → Enter r →
        let answer := callback (h.arguments r s) s.user
        answer.1 = mark ∧ answer.2.2 ≠ .stop ∧
          (s.tag r.referee ≠ mark → answer.2.2 = .visit))
    (hSkip :
      ∀ r s, Inv s → ¬ Enter r →
        let answer := callback (h.arguments r s) s.user
        answer.1 = s.tag r.referee ∧ answer.2.2 = .skip) :
    Worklist.Marks h.graph (h.invoke callback) Inv Enter
      (fun s o => s.tag o = mark) := by
  refine ⟨fun r s hs => hInv r s hs, ?_, ?_, ?_, ?_, ?_⟩
  · intro r s hs hr o
    rw [invoke_tag, (hEnter r s hs hr).1]
    by_cases hEq : o = r.referee
    · simp [hEq]
    · simp [hEq]
  · intro r s hs hr hUnmarked
    exact (hEnter r s hs hr).2.2 hUnmarked
  · intro r s hs hr o
    rw [invoke_tag, (hSkip r s hs hr).1,
      Function.update_eq_self]
  · intro r s hs hr
    exact (hSkip r s hs hr).2
  · intro r s hs
    by_cases hr : Enter r
    · exact (hEnter r s hs hr).2.1
    · rw [invoke_signal, (hSkip r s hs hr).2]
      simp

/-
  The traversal `FollowReferences` starts: from the heap
  roots, or from one initial object.
-/
def traversal
    (h : Heap O)
    (initialObject : Option O)
    (s : Tagged O T U) :
    Worklist.State O (Report O) (Tagged O T U) :=
  match initialObject with
  | none => ⟨h.rootReports, [], s⟩
  | some o => ⟨h.reportsOf o, [o], s⟩

/-
  `reports` is an order in which an uninterrupted call of
  `FollowReferences` may report references: the roots first,
  then every reference of each visited object, once each.
-/
def FollowReferences
    [Zero T]
    (h : Heap O)
    (initialObject : Option O)
    (callback : HeapReferenceCallback T U)
    (s : Tagged O T U)
    (reports : List (Report O)) : Prop :=
  Worklist.Complete h.graph (h.invoke callback) reports
      (h.traversal initialObject s) ∧
    ∀ r ∈ reports.drop
        (h.traversal initialObject s).pending.length,
      r.referrer ≠ none

instance
    [Zero T]
    (h : Heap O)
    (initialObject : Option O)
    (callback : HeapReferenceCallback T U)
    (s : Tagged O T U)
    (reports : List (Report O)) :
    Decidable
      (h.FollowReferences initialObject callback s
        reports) := by
  unfold FollowReferences
  infer_instance

/- The tags and the user data such a call leaves behind. -/
def followReferences
    [Zero T]
    (h : Heap O)
    (initialObject : Option O)
    (callback : HeapReferenceCallback T U)
    (s : Tagged O T U)
    (reports : List (Report O)) : Tagged O T U :=
  (Worklist.replay h.graph (h.invoke callback) reports
    (h.traversal initialObject s)).data

/-
  On a finite heap a callback that does not stop, as long as
  an invariant holds, has an uninterrupted call.
-/
theorem exists_followReferences_of_invariant
    [Fintype O]
    [Zero T]
    (h : Heap O)
    (initialObject : Option O)
    {callback : HeapReferenceCallback T U}
    (Inv :
      Worklist.State O (Report O) (Tagged O T U) → Prop)
    (hStep :
      ∀ state r, Inv state → r ∈ state.pending →
        Inv (Worklist.report h.graph (h.invoke callback) r
          state))
    (hStop :
      ∀ state r, Inv state → r ∈ state.pending →
        (h.invoke callback r state.data).2 ≠ .stop)
    (s : Tagged O T U)
    (hInit : Inv (h.traversal initialObject s)) :
    ∃ reports,
      h.FollowReferences initialObject callback s
        reports := by
  rcases Worklist.exists_complete h.graph Inv hStep hStop
      (h.traversal initialObject s) hInit with
    ⟨rest, hComplete, hRest⟩
  refine ⟨_, hComplete, ?_⟩
  intro r hMem
  rw [List.drop_left] at hMem
  rcases hRest r hMem with ⟨o, hOut⟩
  have hReferrer := ((h.mem_reportsOf_iff o r).mp hOut).1
  simp [hReferrer]

theorem exists_followReferences
    [Fintype O]
    [Zero T]
    (h : Heap O)
    (initialObject : Option O)
    {callback : HeapReferenceCallback T U}
    (hStop :
      ∀ args user, (callback args user).2.2 ≠ .stop)
    (s : Tagged O T U) :
    ∃ reports,
      h.FollowReferences initialObject callback s
        reports :=
  h.exists_followReferences_of_invariant initialObject
    (fun _ => True) (fun _ _ _ _ => trivial)
    (fun state r _ _ =>
      hStop (h.arguments r state.data) state.data.user)
    s trivial

/-
  `objects` is an answer of `GetObjectsWithTags`: the
  objects that carry one of the tags, each once.  Objects
  with tag 0 are untagged and in no answer.
-/
def ObjectsWithTags
    [Zero T]
    (s : Tagged O T U)
    (tags : List T)
    (objects : List O) : Prop :=
  objects.Nodup ∧
    ∀ o, o ∈ objects ↔ s.tag o ≠ 0 ∧ s.tag o ∈ tags

instance
    [Fintype O]
    [DecidableEq T]
    [Zero T]
    (s : Tagged O T U)
    (tags : List T)
    (objects : List O) :
    Decidable (ObjectsWithTags s tags objects) := by
  unfold ObjectsWithTags
  infer_instance

omit [DecidableEq O] in
theorem objectsWithTags_singleton
    [Zero T]
    {s : Tagged O T U}
    {t : T}
    {objects : List O}
    (hNe : t ≠ 0) :
    ObjectsWithTags s [t] objects ↔
      objects.Nodup ∧ ∀ o, o ∈ objects ↔ s.tag o = t := by
  have hSame :
      ∀ o, (s.tag o ≠ 0 ∧ s.tag o ∈ [t]) ↔ s.tag o = t := by
    intro o
    rw [List.mem_singleton]
    constructor
    · exact And.right
    · intro hTag
      rw [hTag]
      exact ⟨hNe, rfl⟩
  unfold ObjectsWithTags
  simp only [hSame]

end Heap

end MemoryAgent
