import Mathlib.Data.Int.Interval
import MemoryAgent.Sizes.DominatorTree.Forest

/-
  Sequences of `link`, `eval` and assignments to `semi`, in
  any order that links roots to other trees and assigns to
  roots only.

  Key definitions include:
    * `DominatorTree.Operation`
    * `DominatorTree.Disciplined`
    * `DominatorTree.Least`

  Main results:
    * `DominatorTree.Built.execute`
    * `DominatorTree.Built.run`
    * `DominatorTree.Built.eval`
    * `DominatorTree.eval_among_links`
-/

------------------------------------------------------------
-- Operations
------------------------------------------------------------

namespace MemoryAgent

namespace DominatorTree

open StdVector PathCompression

/- The vectors that the operations read and write. -/
structure Vectors where
  semi : jlongs
  forest : Forest

inductive Operation where
  | link (v w : jlong)
  | eval (v : jlong)
  | assign (v x : jlong)
deriving DecidableEq

def Vectors.initial (semi : jlongs) : Vectors where
  semi := semi
  forest := initialForest semi.length

def execute
    (fuel : Nat)
    (s : Vectors) : Operation → Option Vectors
| .link v w => do
    let forest ← link v w s.forest
    some { s with forest := forest }
| .eval v => do
    let (_, forest) ← eval s.semi fuel v s.forest
    some { s with forest := forest }
| .assign v x => do
    let semi ← write s.semi v x
    some { s with semi := semi }

def run
    (fuel : Nat)
    (s : Vectors)
    (ops : List Operation) : Option Vectors :=
  ops.foldlM (execute fuel) s

/- The key of the vertex that `eval` returns. -/
def found
    (fuel : Nat)
    (s : Vectors)
    (v : jlong) : Option jlong := do
  let (u, _) ← eval s.semi fuel v s.forest
  read s.semi u

------------------------------------------------------------
-- The Forest of the Links Alone
------------------------------------------------------------

abbrev Links :=
  jlong → Option jlong

def Links.after
    (links : Links) : Operation → Links
| .link v w => Function.update links w (some v)
| .eval _ => links
| .assign _ _ => links

/- The links of a sequence of operations. -/
def linksOf (ops : List Operation) : Links :=
  ops.foldl Links.after (fun _ => none)

/-
  `link v w` needs a root `w` and a vertex `v` outside its
  tree, and an assignment needs a root.
-/
def Allowed
    (size : Nat)
    (links : Links) : Operation → Prop
| .link v w =>
    InRange size v ∧ InRange size w ∧ links w = none ∧
      ¬ Up links v w
| .eval v => InRange size v
| .assign v _ => InRange size v ∧ links v = none

def Disciplined
    (size : Nat) : Links → List Operation → Prop
| _, [] => True
| links, op :: ops =>
    Allowed size links op ∧
      Disciplined size (links.after op) ops

/-
  The vertex `u` is `v` itself when `v` is a root.
  Otherwise it has the least key on the path from `v` up to,
  and without, the root.
-/
structure Least
    (links : Links)
    (semi : jlongs)
    (v u : jlong) : Prop where
  of_root : links v = none → u = v
  up : Up links v u
  inner : links v ≠ none → links u ≠ none
  le :
    links v ≠ none →
      ∀ y, Up links v y → links y ≠ none →
        ∃ a b, read semi u = some a ∧
          read semi y = some b ∧ a ≤ b

/- The links that the vector of the ancestors holds. -/
def ancestors
    (s : Forest)
    (v : jlong) : Option jlong :=
  (read s.ancestor v).bind asLink

------------------------------------------------------------
-- The Invariant
------------------------------------------------------------

/- The tables behind the vectors. -/
structure Tables where
  ancestor : jlong → jlong
  label : jlong → jlong
  semi : jlong → jlong

def Tables.vectors
    (t : Tables)
    (size : Nat) : Vectors where
  semi := tabulate size t.semi
  forest := forestOf size t.ancestor t.label

/- The keys after an operation. -/
def Operation.keys
    (op : Operation)
    (semi : jlong → jlong) : jlong → jlong :=
  match op with
  | .link _ _ => semi
  | .eval _ => semi
  | .assign v x => Function.update semi v x

/- The vectors hold a compression of the forest `links`. -/
structure Built
    (size : Nat)
    (links : Links)
    (t : Tables) : Prop where
  compressed :
    Compressed links (fun v => asLink (t.ancestor v)) t.label
      t.semi
  depth : ∃ rank, Depth links rank
  inRange :
    ∀ v p, links v = some p → InRange size v ∧ InRange size p

section Steps

variable {size fuel : Nat}
variable {links : Links}
variable {t : Tables}
variable {op : Operation}
variable {u v w : jlong}

theorem Built.init
    (size : Nat)
    (semi : jlong → jlong) :
    Built size (fun _ => none)
      ⟨fun _ => -1, fun v => v, semi⟩ := by
  refine ⟨Compressed.init semi, ⟨_, Depth.init⟩, ?_⟩
  intro v p hNone
  cases hNone

theorem Built.forest
    (hBuilt : Built size links t)
    {rank : jlong → Nat}
    (hRanked : Ranked links rank) :
    ForestInvariant size links rank t.ancestor t.label
      t.semi :=
  ⟨hBuilt.compressed, hRanked,
    fun v p hParent => (hBuilt.inRange v p hParent).2⟩

/- The depth of a vertex is less than their number. -/
theorem Built.rank_lt
    (hBuilt : Built size links t)
    {rank : jlong → Nat}
    (hDepth : Depth links rank)
    (hRange : InRange size v) :
    rank v < size := by
  have hMem :
      ∀ x, x ∈ Finset.Ico (0 : Int) size ↔
        InRange size x :=
    fun x => Finset.mem_Ico
  have hLt :=
    hDepth.lt_card
      (fun x _ p hParent =>
        (hMem p).mpr (hBuilt.inRange x p hParent).2)
      ((hMem v).mpr hRange)
  rw [Int.card_Ico] at hLt
  omega

/- `eval` returns what it should and keeps the forest. -/
theorem Built.eval
    (hBuilt : Built size links t)
    (hFuel : size ≤ fuel)
    (hRange : InRange size v) :
    ∃ u t',
      DominatorTree.eval (t.vectors size).semi fuel v
          (t.vectors size).forest =
        some (u, (t'.vectors size).forest) ∧
      t'.semi = t.semi ∧
      Built size links t' ∧
      Evaluates links t.semi v u := by
  rcases hBuilt.depth with ⟨rank, hDepth⟩
  have hLt := hBuilt.rank_lt hDepth hRange
  rcases eval_spec fuel (hBuilt.forest hDepth.ranked) hRange
      (hLt.trans_le hFuel) with
    ⟨u, ancestor, label, hCall, hForest, hEval⟩
  exact ⟨u, ⟨ancestor, label, t.semi⟩, hCall, rfl,
    ⟨hForest.compressed, hBuilt.depth, hBuilt.inRange⟩,
    hEval⟩

theorem Built.link
    (hBuilt : Built size links t)
    (hRangeV : InRange size v)
    (hRangeW : InRange size w)
    (hRoot : links w = none)
    (hOutside : ¬ Up links v w) :
    DominatorTree.link v w (t.vectors size).forest =
        some (forestOf size
          (Function.update t.ancestor w v) t.label) ∧
      Built size (Function.update links w (some v))
        ⟨Function.update t.ancestor w v, t.label, t.semi⟩ := by
  rcases hBuilt.depth with ⟨rank, hDepth⟩
  rcases hDepth.lowered_lt hRoot hOutside with
    ⟨hRankV, hRankW⟩
  have hForest :=
    hBuilt.forest (hDepth.ranked_lowered (v := v) hRoot)
  rcases link_spec hForest hRangeW hRangeV hRoot
      (by omega) with ⟨hCall, hForest'⟩
  refine ⟨hCall, hForest'.compressed,
    ⟨_, hDepth.link hRoot hOutside⟩, ?_⟩
  intro x p hParent
  by_cases hEq : x = w
  · rw [hEq, Function.update_self] at hParent
    cases hParent
    rw [hEq]
    exact ⟨hRangeW, hRangeV⟩
  · rw [Function.update_of_ne hEq] at hParent
    exact hBuilt.inRange x p hParent

theorem Built.assign
    (hBuilt : Built size links t)
    (hRoot : links v = none)
    (x : jlong) :
    Built size links
      ⟨t.ancestor, t.label, Function.update t.semi v x⟩ := by
  refine ⟨hBuilt.compressed.change_keys _ ?_, hBuilt.depth,
    hBuilt.inRange⟩
  intro u hInner
  apply Function.update_of_ne
  intro hEq
  rw [hEq] at hInner
  exact hInner hRoot

/-
  An allowed operation has a result.  What it does to `semi`
  does not depend on the forest.
-/
theorem Built.execute
    (hBuilt : Built size links t)
    (hFuel : size ≤ fuel)
    (hAllowed : Allowed size links op) :
    ∃ t',
      DominatorTree.execute fuel (t.vectors size) op =
        some (t'.vectors size) ∧
      t'.semi = Operation.keys op t.semi ∧
      Built size (links.after op) t' := by
  cases op with
  | link v w =>
      rcases hAllowed with
        ⟨hRangeV, hRangeW, hRoot, hOutside⟩
      rcases hBuilt.link hRangeV hRangeW hRoot hOutside with
        ⟨hCall, hBuilt'⟩
      refine ⟨⟨Function.update t.ancestor w v, t.label,
        t.semi⟩, ?_, rfl, hBuilt'⟩
      simp only [DominatorTree.execute, hCall,
        Option.bind_eq_bind, Option.bind_some]
      rfl
  | eval v =>
      rcases hBuilt.eval hFuel hAllowed with
        ⟨u, t', hCall, hSemi, hBuilt', _⟩
      refine ⟨t', ?_, hSemi, hBuilt'⟩
      simp only [DominatorTree.execute, hCall,
        Option.bind_eq_bind, Option.bind_some]
      simp only [Tables.vectors, hSemi]
  | assign v x =>
      rcases hAllowed with ⟨hRange, hRoot⟩
      refine ⟨_, ?_, rfl, hBuilt.assign hRoot x⟩
      simp only [DominatorTree.execute, Tables.vectors,
        write_tabulate _ _ hRange, Option.bind_eq_bind,
        Option.bind_some]

/- A disciplined sequence of operations has a result. -/
theorem Built.run
    (hBuilt : Built size links t)
    (hFuel : size ≤ fuel)
    {ops : List Operation}
    (hOps : Disciplined size links ops) :
    ∃ t',
      DominatorTree.run fuel (t.vectors size) ops =
        some (t'.vectors size) ∧
      t'.semi =
        ops.foldl (fun semi op => op.keys semi) t.semi ∧
      Built size (ops.foldl Links.after links) t' := by
  induction ops generalizing links t with
  | nil => exact ⟨t, rfl, rfl, hBuilt⟩
  | cons op ops ih =>
      rcases hBuilt.execute hFuel hOps.1 with
        ⟨t₁, hStep, hSemi, hBuilt₁⟩
      rcases ih hBuilt₁ hOps.2 with
        ⟨t', hRun, hSemi', hBuilt'⟩
      refine ⟨t', ?_, ?_, hBuilt'⟩
      · unfold DominatorTree.run at hRun ⊢
        rw [List.foldlM_cons, hStep]
        exact hRun
      · rw [hSemi', hSemi]
        rfl

------------------------------------------------------------
-- What `eval` Finds
------------------------------------------------------------

/- The path of a vertex of the vectors stays among them. -/
theorem Built.inRange_of_up
    (hBuilt : Built size links t)
    (hRange : InRange size v)
    (hUp : Up links v u) :
    InRange size u := by
  induction hUp with
  | refl => exact hRange
  | tail _ hStep _ => exact (hBuilt.inRange _ _ hStep).2

theorem Built.least
    (hBuilt : Built size links t)
    (hRange : InRange size v)
    (hEval : Evaluates links t.semi v u) :
    Least links (t.vectors size).semi v u := by
  have hRangeU := hBuilt.inRange_of_up hRange hEval.up
  refine ⟨hEval.of_root, hEval.up, hEval.inner, ?_⟩
  intro hInner y hUp hInnerY
  exact ⟨t.semi u, t.semi y, read_tabulate _ hRangeU,
    read_tabulate _ (hBuilt.inRange_of_up hRange hUp),
    hEval.least hInner y hUp hInnerY⟩

/- Two vertices of least key have the same key. -/
theorem Evaluates.key_eq
    {key : jlong → jlong}
    {u' : jlong}
    (hLeft : Evaluates links key v u)
    (hRight : Evaluates links key v u') :
    key u = key u' := by
  by_cases hRoot : links v = none
  · rw [hLeft.of_root hRoot, hRight.of_root hRoot]
  · exact le_antisymm
      (hLeft.least hRoot u' hRight.up (hRight.inner hRoot))
      (hRight.least hRoot u hLeft.up (hLeft.inner hRoot))

/- What `eval` finds depends on the links and the keys only. -/
theorem Built.found_eq
    {t' : Tables}
    (hBuilt : Built size links t)
    (hBuilt' : Built size links t')
    (hSemi : t'.semi = t.semi)
    (hFuel : size ≤ fuel)
    (hRange : InRange size v) :
    ∃ key, found fuel (t.vectors size) v = some key ∧
      found fuel (t'.vectors size) v = some key := by
  rcases hBuilt.eval hFuel hRange with
    ⟨u, _, hCall, _, _, hEval⟩
  rcases hBuilt'.eval hFuel hRange with
    ⟨u', _, hCall', _, _, hEval'⟩
  have hRangeU := hBuilt.inRange_of_up hRange hEval.up
  have hRangeU' := hBuilt.inRange_of_up hRange hEval'.up
  rw [hSemi] at hEval'
  refine ⟨t.semi u, ?_, ?_⟩
  · unfold found
    rw [hCall]
    exact read_tabulate _ hRangeU
  · unfold found
    rw [hCall', hEval.key_eq hEval', ← hSemi]
    exact read_tabulate _ hRangeU'

/- The vector of the ancestors has the roots of the links. -/
theorem Built.rootOf_iff
    (hBuilt : Built size links t)
    {x r : jlong} :
    RootOf (ancestors (t.vectors size).forest) x r ↔
      RootOf links x r := by
  have hEq :
      ancestors (t.vectors size).forest =
        fun v => asLink (t.ancestor v) := by
    funext v
    change (read (tabulate size t.ancestor) v).bind asLink =
      asLink (t.ancestor v)
    by_cases hRange : InRange size v
    · rw [read_tabulate _ hRange]
      rfl
    · have hRoot : links v = none := by
        by_contra hInner
        rcases Option.ne_none_iff_exists'.mp hInner with
          ⟨p, hParent⟩
        exact hRange (hBuilt.inRange v p hParent).1
      have hNone : read (tabulate size t.ancestor) v = none := by
        rw [read_eq_none_iff, length_tabulate]
        exact hRange
      rw [hNone,
        (hBuilt.compressed.root v).mpr hRoot]
      rfl
  rcases hBuilt.depth with ⟨rank, hDepth⟩
  rw [hEq]
  exact hBuilt.compressed.rootOf_iff hDepth.ranked

/-
  After any disciplined sequence of operations, `eval v`
  returns a vertex of least key on the path of `v` in the
  forest of the links alone.  It changes no root, and no key
  that a later `eval` finds.
-/
theorem eval_among_links
    (semi : jlongs)
    (ops : List Operation)
    (fuel : Nat)
    (v : jlong)
    (hOps :
      Disciplined semi.length (fun _ => none) ops)
    (hFuel : semi.length ≤ fuel)
    (hRange : InRange semi.length v) :
    ∃ s u forest,
      run fuel (.initial semi) ops = some s ∧
      eval s.semi fuel v s.forest = some (u, forest) ∧
      Least (linksOf ops) s.semi v u ∧
      (∀ x r,
        RootOf (ancestors s.forest) x r ↔
          RootOf (linksOf ops) x r) ∧
      (∀ x r,
        RootOf (ancestors forest) x r ↔
          RootOf (ancestors s.forest) x r) ∧
      ∀ later,
        Disciplined semi.length (linksOf ops) later →
        ∃ t t',
          run fuel s later = some t ∧
          run fuel { s with forest := forest } later =
            some t' ∧
          ∀ x, InRange semi.length x →
            ∃ key, found fuel t x = some key ∧
              found fuel t' x = some key := by
  rcases exists_tabulate semi with ⟨key, hKey⟩
  have hInit :
      Vectors.initial semi =
        Tables.vectors ⟨fun _ => -1, fun v => v, key⟩
          semi.length := by
    unfold Vectors.initial Tables.vectors
    rw [← hKey]
    unfold initialForest forestOf
    rw [tabulate_const]
    rfl
  rcases (Built.init semi.length key).run hFuel hOps with
    ⟨t, hRun, _, hBuilt⟩
  rcases hBuilt.eval hFuel hRange with
    ⟨u, t', hCall, hSemi, hBuilt', hEval⟩
  have hVectors :
      Vectors.mk (t.vectors semi.length).semi
          (t'.vectors semi.length).forest =
        t'.vectors semi.length := by
    simp only [Tables.vectors, hSemi]
  refine ⟨t.vectors semi.length, u,
    (t'.vectors semi.length).forest, ?_, hCall,
    hBuilt.least hRange hEval, ?_, ?_, ?_⟩
  · rw [hInit]
    exact hRun
  · exact fun x r => hBuilt.rootOf_iff
  · exact fun x r =>
      hBuilt'.rootOf_iff.trans hBuilt.rootOf_iff.symm
  · intro later hLater
    rcases hBuilt.run hFuel hLater with
      ⟨t₁, hRun₁, hSemi₁, hBuilt₁⟩
    rcases hBuilt'.run hFuel hLater with
      ⟨t₂, hRun₂, hSemi₂, hBuilt₂⟩
    rw [hSemi, ← hSemi₁] at hSemi₂
    refine ⟨t₁.vectors semi.length, t₂.vectors semi.length,
      hRun₁, ?_, ?_⟩
    · rw [hVectors]
      exact hRun₂
    · exact fun x hRangeX =>
        hBuilt₁.found_eq hBuilt₂ hSemi₂ hFuel hRangeX

end Steps

/- A path of four vertices, and an `eval` that compresses. -/
def pathOperations : List Operation :=
  [.assign 2 4, .assign 3 9, .link 2 3, .link 1 2, .link 0 1,
    .eval 2]

theorem eval_among_links_path :
    ∃ s u forest,
      run 4 (.initial [5, 3, 7, 1]) pathOperations =
        some s ∧
      eval s.semi 4 3 s.forest = some (u, forest) ∧
      Least (linksOf pathOperations) s.semi 3 u ∧
      ∀ x r,
        RootOf (ancestors forest) x r ↔
          RootOf (ancestors s.forest) x r := by
  have hRoots :
      ∀ (links : Links) (v w : jlong), links v = none →
        v ≠ w → ¬ Up links v w :=
    fun _ _ _ hRoot hNe hUp => hNe (hUp.eq_of_root hRoot)
  have hOps :
      Disciplined 4 (fun _ => none) pathOperations := by
    refine ⟨⟨(by decide : InRange 4 2), rfl⟩,
      ⟨(by decide : InRange 4 3), rfl⟩, ?_, ?_, ?_, ?_,
      trivial⟩
    · exact ⟨by decide, by decide, rfl,
        hRoots _ 2 3 rfl (by decide)⟩
    · exact ⟨by decide, by decide, rfl,
        hRoots _ 1 2 rfl (by decide)⟩
    · exact ⟨by decide, by decide, rfl,
        hRoots _ 0 1 rfl (by decide)⟩
    · exact (by decide : InRange 4 2)
  rcases eval_among_links [5, 3, 7, 1] pathOperations 4 3
      hOps (by decide) (by decide) with
    ⟨s, u, forest, hRun, hCall, hLeast, _, hRoot, _⟩
  exact ⟨s, u, forest, hRun, hCall, hLeast, hRoot⟩

end DominatorTree

end MemoryAgent
