import Mathlib.Data.List.Basic
import Mathlib.Data.List.Nodup
import Mathlib.Data.List.Pairwise
import Mathlib.Logic.Relation
import Mathlib.Order.Nat
import Mathlib.Tactic.Common

/-
  Breadth-first search from one node along a relation.

  A search is at every moment a list of nodes it has dealt
  with, a queue of nodes it has discovered, and the node
  each discovered one was discovered from.  The invariant
  `BreadthFirst.Frontier` also assigns depths, and makes
  them distances.

  Key definitions include:
    * `BreadthFirst.Steps`
    * `BreadthFirst.IsDistance`
    * `BreadthFirst.follow`
    * `BreadthFirst.Frontier`

  Main results:
    * `BreadthFirst.Frontier.discover`
    * `BreadthFirst.Frontier.settle`
    * `BreadthFirst.Frontier.isDistance`
    * `BreadthFirst.Frontier.follow_depth`
    * `BreadthFirst.Frontier.depth_le_of_not_done`
    * `BreadthFirst.isDistance_image_iff`
-/

------------------------------------------------------------
-- Distances
------------------------------------------------------------

namespace BreadthFirst

variable {N : Type}

/- `Steps R n a b`: `n` steps of `R` lead from `a` to `b`. -/
def Steps (R : N → N → Prop) : Nat → N → N → Prop
| 0, a, b => a = b
| n + 1, a, c => ∃ b, Steps R n a b ∧ R b c

/- The least number of steps that lead from `a` to `b`. -/
def IsDistance
    (R : N → N → Prop)
    (a b : N)
    (n : Nat) : Prop :=
  Steps R n a b ∧ ∀ m, Steps R m a b → n ≤ m

/- Apply a partial map `n` times. -/
def follow (prev : N → Option N) : Nat → N → Option N
| 0, a => some a
| n + 1, a =>
    match prev a with
    | none => none
    | some b => follow prev n b

------------------------------------------------------------
-- The Search Frontier
------------------------------------------------------------

/-
  `done` lists the nodes dealt with and `queue` those that
  wait, both in the order of their discovery.
-/
structure Frontier
    (R : N → N → Prop)
    (start : N)
    (done queue : List N)
    (prev : N → Option N)
    (depth : N → Nat) : Prop where
  nodup : (done ++ queue).Nodup
  discovered :
    ∀ a, prev a ≠ none ↔ a ∈ done ++ queue
  sorted :
    (done ++ queue).Pairwise (fun a b => depth a ≤ depth b)
  near :
    ∀ a ∈ queue, ∀ b ∈ queue, depth b ≤ depth a + 1
  start_prev : prev start = some start
  start_depth : depth start = 0
  step :
    ∀ a b, a ≠ start → prev a = some b →
      R b a ∧ depth a = depth b + 1
  parent :
    ∀ a b, a ≠ start → prev a = some b →
      b ∈ done ∨ queue.head? = some b
  closed :
    ∀ a ∈ done, ∀ b, R a b →
      b ∈ done ++ queue ∧ depth b ≤ depth a + 1

/- The search starts with its start node in the queue. -/
theorem Frontier.init
    [DecidableEq N]
    (R : N → N → Prop)
    (start : N) :
    Frontier R start [] [start]
      (Function.update (fun _ => none) start (some start))
      (fun _ => 0) := by
  constructor
  · simp
  · intro a
    by_cases hEq : a = start
    · simp [hEq]
    · simp [hEq]
  · simp
  · simp
  · simp
  · rfl
  · intro a b hNe hPrev
    simp [hNe] at hPrev
  · intro a b hNe hPrev
    simp [hNe] at hPrev
  · simp

section Levels

variable {R : N → N → Prop}
variable {start current a b : N}
variable {done queue : List N}
variable {prev : N → Option N}
variable {depth : N → Nat}

theorem Frontier.start_mem
    (hFrontier : Frontier R start done queue prev depth) :
    start ∈ done ++ queue := by
  rw [← hFrontier.discovered, hFrontier.start_prev]
  simp

/- No node that waits is above what was or is dealt with, -/
theorem Frontier.le_waiting
    (hFrontier : Frontier R start done queue prev depth)
    (hFirst : a ∈ done ∨ queue.head? = some a)
    (hMem : b ∈ queue) :
    depth a ≤ depth b := by
  have hSorted := List.pairwise_append.mp hFrontier.sorted
  rcases hFirst with hDone | hHead
  · exact hSorted.2.2 a hDone b hMem
  · cases queue with
    | nil => cases hMem
    | cons head tail =>
        simp only [List.head?_cons, Option.some.injEq]
          at hHead
        rw [← hHead]
        rcases List.mem_cons.mp hMem with hEq | hTail
        · rw [hEq]
        · exact
            (List.pairwise_cons.mp hSorted.2.1).1 b hTail

/- and no discovered node is below the level that follows. -/
theorem Frontier.le_next
    (hFrontier :
      Frontier R start done (current :: queue) prev depth)
    (hMem : a ∈ done ++ current :: queue) :
    depth a ≤ depth current + 1 := by
  rcases List.mem_append.mp hMem with hDone | hQueue
  · exact le_trans
      (hFrontier.le_waiting (Or.inl hDone)
        List.mem_cons_self)
      (Nat.le_succ _)
  · exact hFrontier.near current List.mem_cons_self a
      hQueue

theorem Frontier.prev_mem
    (hFrontier : Frontier R start done queue prev depth)
    (hNe : a ≠ start)
    (hPrev : prev a = some b) :
    b ∈ done ++ queue := by
  rcases hFrontier.parent a b hNe hPrev with hDone | hHead
  · exact List.mem_append_left _ hDone
  · exact List.mem_append_right _ (List.mem_of_head? hHead)

end Levels

/-
  A node discovered from the head of the queue joins the
  queue one level deeper.
-/
theorem Frontier.discover
    [DecidableEq N]
    {R : N → N → Prop}
    {start current next : N}
    {done queue : List N}
    {prev : N → Option N}
    {depth : N → Nat}
    (hFrontier :
      Frontier R start done (current :: queue) prev depth)
    (hStep : R current next)
    (hNew : prev next = none) :
    Frontier R start done
      (current :: (queue ++ [next]))
      (Function.update prev next (some current))
      (Function.update depth next (depth current + 1)) := by
  have hNotMem : next ∉ done ++ current :: queue := by
    intro hMem
    exact (hFrontier.discovered next).mpr hMem hNew
  have hKeep :
      ∀ a ∈ done ++ current :: queue,
        Function.update depth next (depth current + 1) a =
          depth a := by
    intro a hMem
    apply Function.update_of_ne
    intro hEq
    exact hNotMem (hEq ▸ hMem)
  have hStartNe : start ≠ next :=
    fun hEq => hNotMem (hEq ▸ hFrontier.start_mem)
  have hCurrent : current ∈ done ++ current :: queue := by
    simp
  have hAssoc :
      done ++ current :: (queue ++ [next]) =
        (done ++ current :: queue) ++ [next] := by
    simp
  constructor
  · rw [hAssoc]
    exact hFrontier.nodup.append (List.nodup_singleton _)
      (by simpa using hNotMem)
  · intro a
    rw [hAssoc, List.mem_append, List.mem_singleton,
      ← hFrontier.discovered]
    by_cases hEq : a = next
    · simp [hEq]
    · simp [hEq]
  · rw [hAssoc, List.pairwise_append]
    refine ⟨?_, List.pairwise_singleton _ _, ?_⟩
    · apply hFrontier.sorted.imp_of_mem
      intro a b ha hb hLe
      rw [hKeep a ha, hKeep b hb]
      exact hLe
    · intro a ha b hb
      rw [List.mem_singleton] at hb
      subst hb
      rw [hKeep a ha, Function.update_self]
      exact hFrontier.le_next ha
  · have hOld :
        ∀ a ∈ current :: (queue ++ [next]),
          a = next ∨ a ∈ current :: queue := by
      intro a ha
      simp only [List.mem_cons, List.mem_append,
        List.not_mem_nil, or_false] at ha ⊢
      tauto
    intro a ha b hb
    rcases hOld a ha with haNew | haOld
    · subst haNew
      rw [Function.update_self]
      rcases hOld b hb with hbNew | hbOld
      · subst hbNew
        rw [Function.update_self]
        omega
      · rw [hKeep b (List.mem_append_right _ hbOld)]
        have hNext :=
          hFrontier.le_next (List.mem_append_right _ hbOld)
        omega
    · rw [hKeep a (List.mem_append_right _ haOld)]
      rcases hOld b hb with hbNew | hbOld
      · subst hbNew
        rw [Function.update_self]
        have hLe :=
          hFrontier.le_waiting (Or.inr rfl) haOld
        omega
      · rw [hKeep b (List.mem_append_right _ hbOld)]
        exact hFrontier.near a haOld b hbOld
  · rw [Function.update_of_ne hStartNe]
    exact hFrontier.start_prev
  · rw [Function.update_of_ne hStartNe]
    exact hFrontier.start_depth
  · intro a b hNe hPrev
    by_cases hEq : a = next
    · subst hEq
      rw [Function.update_self, Option.some.injEq] at hPrev
      subst hPrev
      rw [Function.update_self, hKeep _ hCurrent]
      exact ⟨hStep, rfl⟩
    · rw [Function.update_of_ne hEq] at hPrev
      have hOld := hFrontier.step a b hNe hPrev
      have hParent := hFrontier.prev_mem hNe hPrev
      rw [Function.update_of_ne hEq, hKeep b hParent]
      exact hOld
  · intro a b hNe hPrev
    by_cases hEq : a = next
    · subst hEq
      rw [Function.update_self, Option.some.injEq] at hPrev
      simp [hPrev]
    · rw [Function.update_of_ne hEq] at hPrev
      simpa using hFrontier.parent a b hNe hPrev
  · intro a ha b hab
    have hOld := hFrontier.closed a ha b hab
    rw [hAssoc, hKeep b hOld.1,
      hKeep a (List.mem_append_left _ ha)]
    exact ⟨List.mem_append_left _ hOld.1, hOld.2⟩

/-
  When everything next to the head of the queue has been
  discovered, the head is dealt with.
-/
theorem Frontier.settle
    {R : N → N → Prop}
    {start current : N}
    {done queue : List N}
    {prev : N → Option N}
    {depth : N → Nat}
    (hFrontier :
      Frontier R start done (current :: queue) prev depth)
    (hAll : ∀ b, R current b → prev b ≠ none) :
    Frontier R start (done ++ [current]) queue prev
      depth := by
  have hAssoc :
      (done ++ [current]) ++ queue =
        done ++ current :: queue := by
    simp
  constructor
  · rw [hAssoc]
    exact hFrontier.nodup
  · rw [hAssoc]
    exact hFrontier.discovered
  · rw [hAssoc]
    exact hFrontier.sorted
  · intro a ha b hb
    exact hFrontier.near a (List.mem_cons_of_mem _ ha) b
      (List.mem_cons_of_mem _ hb)
  · exact hFrontier.start_prev
  · exact hFrontier.start_depth
  · exact hFrontier.step
  · intro a b hNe hPrev
    left
    rcases hFrontier.parent a b hNe hPrev with h | h
    · exact List.mem_append_left _ h
    · simp only [List.head?_cons, Option.some.injEq] at h
      simp [h]
  · intro a ha b hab
    rw [hAssoc]
    rcases List.mem_append.mp ha with ha | ha
    · exact hFrontier.closed a ha b hab
    · rw [List.mem_singleton] at ha
      subst ha
      have hMem :=
        (hFrontier.discovered b).mp (hAll b hab)
      exact ⟨hMem, hFrontier.le_next hMem⟩

------------------------------------------------------------
-- Depths Are Distances
------------------------------------------------------------

variable {R : N → N → Prop}
variable {start : N}
variable {done queue : List N}
variable {prev : N → Option N}
variable {depth : N → Nat}

/- A discovered node has an ancestor at every depth above. -/
theorem Frontier.steps_depth
    (hFrontier : Frontier R start done queue prev depth)
    {a : N}
    (ha : a ∈ done ++ queue) :
    Steps R (depth a) start a := by
  induction hDepth : depth a generalizing a with
  | zero =>
      by_contra hNe
      have hPrev := (hFrontier.discovered a).mpr ha
      cases hSome : prev a with
      | none => exact hPrev hSome
      | some b =>
          have := (hFrontier.step a b
            (fun hEq => hNe hEq.symm) hSome).2
          omega
  | succ n ih =>
      have hNe : a ≠ start := by
        intro hEq
        rw [hEq, hFrontier.start_depth] at hDepth
        cases hDepth
      cases hSome : prev a with
      | none =>
          exact absurd hSome ((hFrontier.discovered a).mpr ha)
      | some b =>
          have hStep := hFrontier.step a b hNe hSome
          have hParent := hFrontier.prev_mem hNe hSome
          exact ⟨b, ih hParent (by omega), hStep.1⟩

/-
  A discovered node that is less deep than one dealt with
  is dealt with itself.
-/
theorem Frontier.mem_done_of_depth_lt
    (hFrontier : Frontier R start done queue prev depth)
    {a b : N}
    (ha : a ∈ done ++ queue)
    (hb : b ∈ done ∨ queue.head? = some b)
    (hLt : depth a < depth b) :
    a ∈ done := by
  rcases List.mem_append.mp ha with ha | ha
  · exact ha
  · exact absurd hLt
      (Nat.not_lt.mpr (hFrontier.le_waiting hb ha))

/-
  No walk from the start to a discovered node is shorter
  than the depth of that node.
-/
theorem Frontier.depth_le_of_steps
    (hFrontier : Frontier R start done queue prev depth)
    {a : N}
    {m : Nat}
    (ha : a ∈ done ++ queue)
    (hSteps : Steps R m start a) :
    depth a ≤ m := by
  by_contra hLt
  have hNe : a ≠ start := by
    intro hEq
    rw [hEq, hFrontier.start_depth] at hLt
    omega
  cases hSome : prev a with
  | none =>
      exact (hFrontier.discovered a).mpr ha hSome
  | some p =>
      have hDepth := (hFrontier.step a p hNe hSome).2
      have hParent := hFrontier.parent a p hNe hSome
      -- A walk shorter than `depth a` stays among nodes
      -- whose depths it bounds.
      have hWalk :
          ∀ j b, j ≤ m → Steps R j start b →
            b ∈ done ++ queue ∧ depth b ≤ j := by
        intro j
        induction j with
        | zero =>
            intro b _ hb
            rw [← show start = b from hb]
            refine ⟨?_, hFrontier.start_depth.le⟩
            rw [← hFrontier.discovered,
              hFrontier.start_prev]
            simp
        | succ j ih =>
            rintro c hj ⟨b, hb, hbc⟩
            have hPrefix := ih b (by omega) hb
            have hDone : b ∈ done :=
              hFrontier.mem_done_of_depth_lt hPrefix.1
                hParent (by omega)
            have hClosed := hFrontier.closed b hDone c hbc
            exact ⟨hClosed.1, by omega⟩
      have := (hWalk m a le_rfl hSteps).2
      omega

/- Depths of discovered nodes are distances. -/
theorem Frontier.isDistance
    (hFrontier : Frontier R start done queue prev depth)
    {a : N}
    (ha : a ∈ done ++ queue) :
    IsDistance R start a (depth a) :=
  ⟨hFrontier.steps_depth ha,
    fun _ hSteps => hFrontier.depth_le_of_steps ha hSteps⟩

/-
  Following the discovery links leads to the start in
  exactly `depth a` steps.
-/
theorem Frontier.follow_depth
    (hFrontier : Frontier R start done queue prev depth)
    {a : N}
    (ha : a ∈ done ++ queue) :
    follow prev (depth a) a = some start ∧
      ∀ m < depth a, follow prev m a ≠ some start := by
  induction hDepth : depth a generalizing a with
  | zero =>
      have hZero : start = a := by
        have hSteps := hFrontier.steps_depth ha
        rw [hDepth] at hSteps
        exact hSteps
      subst hZero
      exact ⟨rfl, by simp⟩
  | succ n ih =>
      have hNe : a ≠ start := by
        intro hEq
        rw [hEq, hFrontier.start_depth] at hDepth
        cases hDepth
      cases hSome : prev a with
      | none =>
          exact absurd hSome ((hFrontier.discovered a).mpr ha)
      | some b =>
          have hStep := hFrontier.step a b hNe hSome
          have hParent := hFrontier.prev_mem hNe hSome
          have hFollow := ih hParent (by omega)
          constructor
          · simp only [follow, hSome]
            exact hFollow.1
          · intro m hm
            cases m with
            | zero =>
                simp only [follow, ne_eq,
                  Option.some.injEq]
                exact hNe
            | succ m =>
                simp only [follow, hSome]
                exact hFollow.2 m (by omega)

/-
  A node that is not dealt with is at least as far away as
  every node dealt with and as the head of the queue.
-/
theorem Frontier.depth_le_of_not_done
    (hFrontier : Frontier R start done queue prev depth)
    {a b : N}
    {m : Nat}
    (ha : a ∈ done ∨ queue.head? = some a)
    (hb : b ∉ done)
    (hSteps : Steps R m start b) :
    depth a ≤ m := by
  -- The first node of the walk outside `done` is waiting in
  -- the queue, and the walk up to it is no longer.
  have hWaiting :
      ∃ c ∈ queue, ∃ j ≤ m, Steps R j start c := by
    induction m generalizing b with
    | zero =>
        rw [← show start = b from hSteps] at hb
        refine ⟨start, ?_, 0, le_rfl, rfl⟩
        exact (List.mem_append.mp
          hFrontier.start_mem).resolve_left hb
    | succ m ih =>
        rcases hSteps with ⟨c, hc, hcb⟩
        by_cases hDone : c ∈ done
        · have hMem := (hFrontier.closed c hDone b hcb).1
          exact ⟨b,
            (List.mem_append.mp hMem).resolve_left hb,
            m + 1, le_rfl, c, hc, hcb⟩
        · rcases ih hDone hc with ⟨d, hd, j, hj, hWalk⟩
          exact ⟨d, hd, j, by omega, hWalk⟩
  rcases hWaiting with ⟨c, hc, j, hj, hWalk⟩
  have hDepth :=
    hFrontier.depth_le_of_steps
      (List.mem_append_right done hc) hWalk
  exact (hFrontier.le_waiting ha hc).trans (hDepth.trans hj)

/- With an empty queue all that is reachable is dealt with. -/
theorem Frontier.mem_done_of_queue_nil
    (hFrontier : Frontier R start done [] prev depth)
    {a : N}
    {m : Nat}
    (hSteps : Steps R m start a) :
    a ∈ done := by
  induction m generalizing a with
  | zero =>
      rw [← show start = a from hSteps]
      simpa using hFrontier.start_mem
  | succ m ih =>
      rcases hSteps with ⟨b, hb, hba⟩
      have hClosed := (hFrontier.closed b (ih hb) a hba).1
      simpa using hClosed

------------------------------------------------------------
-- Images and Reversals
------------------------------------------------------------

section Image

variable {M : Type}
variable {R : N → N → Prop}
variable {S : M → M → Prop}
variable {D : N → Prop}
variable {f : N → M}
variable {a b : N}
variable {n : Nat}

/- The first step instead of the last one. -/
theorem steps_succ_iff :
    Steps R (n + 1) a b ↔
      ∃ c, R a c ∧ Steps R n c b := by
  induction n generalizing b with
  | zero =>
      constructor
      · rintro ⟨c, rfl, hStep⟩
        exact ⟨b, hStep, rfl⟩
      · rintro ⟨c, hStep, rfl⟩
        exact ⟨a, rfl, hStep⟩
  | succ n ih =>
      constructor
      · rintro ⟨d, hSteps, hLast⟩
        rcases ih.mp hSteps with ⟨c, hFirst, hRest⟩
        exact ⟨c, hFirst, d, hRest, hLast⟩
      · rintro ⟨c, hFirst, d, hRest, hLast⟩
        exact ⟨d, ih.mpr ⟨c, hFirst, hRest⟩, hLast⟩

theorem steps_flip_iff :
    Steps (fun a b => R b a) n a b ↔ Steps R n b a := by
  induction n generalizing b with
  | zero => exact eq_comm
  | succ n ih =>
      rw [steps_succ_iff (R := R)]
      constructor
      · rintro ⟨c, hSteps, hLast⟩
        exact ⟨c, hLast, ih.mp hSteps⟩
      · rintro ⟨c, hLast, hSteps⟩
        exact ⟨c, ih.mpr hSteps, hLast⟩

theorem isDistance_flip_iff :
    IsDistance (fun a b => R b a) a b n ↔
      IsDistance R b a n := by
  unfold IsDistance
  simp only [steps_flip_iff]

theorem Steps.mono
    {R' : N → N → Prop}
    (hMono : ∀ a b, R a b → R' a b)
    (hSteps : Steps R n a b) :
    Steps R' n a b := by
  induction n generalizing b with
  | zero => exact hSteps
  | succ n ih =>
      rcases hSteps with ⟨c, hSteps, hLast⟩
      exact ⟨c, ih hSteps, hMono c b hLast⟩

theorem Steps.reflTransGen
    (hSteps : Steps R n a b) :
    Relation.ReflTransGen R a b := by
  induction n generalizing b with
  | zero => exact (show a = b from hSteps) ▸ .refl
  | succ n ih =>
      rcases hSteps with ⟨c, hSteps, hLast⟩
      exact (ih hSteps).tail hLast

/- What is reachable has a distance. -/
theorem exists_isDistance
    (hReachable : Relation.ReflTransGen R a b) :
    ∃ n, IsDistance R a b n := by
  classical
  have hSteps : ∃ n, Steps R n a b := by
    induction hReachable with
    | refl => exact ⟨0, rfl⟩
    | @tail c d _ hLast ih =>
        rcases ih with ⟨n, hSteps⟩
        exact ⟨n + 1, c, hSteps, hLast⟩
  exact ⟨Nat.find hSteps, Nat.find_spec hSteps,
    fun m hM => Nat.find_min' hSteps hM⟩

/- What holds at the start and is kept holds all along. -/
theorem Steps.closed
    (hClosed : ∀ a b, D a → R a b → D b)
    (hA : D a)
    (hSteps : Steps R n a b) :
    D b := by
  induction n generalizing b with
  | zero => exact (show a = b from hSteps) ▸ hA
  | succ n ih =>
      rcases hSteps with ⟨c, hSteps, hLast⟩
      exact hClosed c b (ih hSteps) hLast

variable
  (hClosed : ∀ a b, D a → R a b → D b)
variable
  (hStep :
    ∀ a, D a → ∀ t, S (f a) t ↔ ∃ b, R a b ∧ f b = t)
include hClosed hStep

/- `S` follows `R` along a map of the nodes. -/
theorem steps_image_iff
    (hA : D a)
    (t : M) :
    Steps S n (f a) t ↔ ∃ b, Steps R n a b ∧ f b = t := by
  induction n generalizing t with
  | zero =>
      constructor
      · intro hEq
        exact ⟨a, rfl, hEq⟩
      · rintro ⟨b, rfl, hEq⟩
        exact hEq
  | succ n ih =>
      constructor
      · rintro ⟨u, hSteps, hLast⟩
        rcases (ih u).mp hSteps with ⟨b, hSteps', rfl⟩
        have hB := hSteps'.closed hClosed hA
        rcases (hStep b hB t).mp hLast with ⟨c, hBC, hEq⟩
        exact ⟨c, ⟨b, hSteps', hBC⟩, hEq⟩
      · rintro ⟨c, ⟨b, hSteps, hBC⟩, hEq⟩
        have hB := hSteps.closed hClosed hA
        exact ⟨f b, (ih (f b)).mpr ⟨b, hSteps, rfl⟩,
          (hStep b hB t).mpr ⟨c, hBC, hEq⟩⟩

/-
  Distances are kept by a map that is injective where the
  steps lead.
-/
theorem isDistance_image_iff
    (hInj : ∀ a b, D a → f a = f b → a = b)
    (hA : D a) :
    IsDistance S (f a) (f b) n ↔ IsDistance R a b n := by
  have hSteps :
      ∀ k, Steps S k (f a) (f b) ↔ Steps R k a b := by
    intro k
    rw [steps_image_iff hClosed hStep hA]
    constructor
    · rintro ⟨c, hSteps, hEq⟩
      have hC := hSteps.closed hClosed hA
      rw [← hInj c b hC hEq]
      exact hSteps
    · intro hSteps
      exact ⟨b, hSteps, rfl⟩
  unfold IsDistance
  simp only [hSteps]

end Image

end BreadthFirst
