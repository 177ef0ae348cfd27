import MemoryAgent.Jvmti.Heap

/-
  Traversals by the order of their reports: what holds after
  a number of reports, for callbacks that visit all objects.

  Key definitions include:
    * `Heap.ReportedBefore`
    * `Heap.Held`
    * `Heap.OrderRules`
    * `Heap.ReachedInOrder`
    * `Heap.Accounted`
    * `Heap.Counted`

  Main results:
    * `Heap.inOrderBefore_succ_iff`
    * `Heap.followReferences_steps`
    * `Heap.roots_first`
    * `Heap.reported_of_reachable`
-/

------------------------------------------------------------
-- Reported Objects
------------------------------------------------------------

namespace MemoryAgent

namespace Heap

variable {O T U : Type}

/- One of the first `n` reports leads to the object. -/
def ReportedBefore
    (reports : List (Report O))
    (n : Nat)
    (o : O) : Prop :=
  ∃ i, i < n ∧
    ∃ r, reports[i]? = some r ∧ r.referee = o

/-
  A reference of a root, if the traversal starts with them,
  or of an object that was reported or is the initial one.
-/
def Held
    (h : Heap O)
    (initialObject : Option O)
    (reports : List (Report O))
    (n : Nat)
    (r : Report O) : Prop :=
  (initialObject = none ∧ r ∈ h.rootReports) ∨
    ∃ a, r ∈ h.reportsOf a ∧
      (initialObject = some a ∨ ReportedBefore reports n a)

variable {reports : List (Report O)}
variable {initialObject : Option O}
variable {n : Nat}
variable {r : Report O}
variable {o : O}

theorem not_reportedBefore_zero :
    ¬ ReportedBefore reports 0 o := by
  rintro ⟨i, hLt, _⟩
  exact absurd hLt (Nat.not_lt_zero i)

theorem reportedBefore_succ_iff
    (hAt : reports[n]? = some r) :
    ReportedBefore reports (n + 1) o ↔
      ReportedBefore reports n o ∨ r.referee = o := by
  constructor
  · rintro ⟨i, hLt, q, hQ, hReferee⟩
    rcases Nat.lt_succ_iff_lt_or_eq.mp hLt with hOld | hEq
    · exact Or.inl ⟨i, hOld, q, hQ, hReferee⟩
    · rw [hEq, hAt] at hQ
      rw [Option.some.inj hQ]
      exact Or.inr hReferee
  · rintro (⟨i, hLt, hRest⟩ | hReferee)
    · exact ⟨i, Nat.lt_succ_of_lt hLt, hRest⟩
    · exact ⟨n, Nat.lt_succ_self n, r, hAt, hReferee⟩

theorem ReportedBefore.succ
    (hReported : ReportedBefore reports n o) :
    ReportedBefore reports (n + 1) o := by
  rcases hReported with ⟨i, hLt, hRest⟩
  exact ⟨i, Nat.lt_succ_of_lt hLt, hRest⟩

variable {h : Heap O}

theorem Held.succ
    (hHeld : Held h initialObject reports n r) :
    Held h initialObject reports (n + 1) r := by
  refine hHeld.imp_right ?_
  rintro ⟨a, hOut, hReached⟩
  exact ⟨a, hOut, hReached.imp_right ReportedBefore.succ⟩

theorem Held.referrer
    {a : O}
    (hHeld : Held h initialObject reports n r)
    (hReferrer : r.referrer = some a) :
    initialObject = some a ∨ ReportedBefore reports n a := by
  rcases hHeld with ⟨_, hRoot⟩ | ⟨b, hOut, hReached⟩
  · rw [((h.mem_rootReports_iff r).mp hRoot).1] at hReferrer
    cases hReferrer
  · rw [((h.mem_reportsOf_iff b r).mp hOut).1] at hReferrer
    cases hReferrer
    exact hReached

------------------------------------------------------------
-- Objects Reached in Order
------------------------------------------------------------

/-
  When a reported reference passes on that its holder was
  reached, and to which objects.  A holder may start by
  itself.  Another one was reached before, and so was its
  guard, unless the guard has no say.
-/
structure OrderRules (O : Type) where
  takes : O → Prop
  starts : Nat → O → Prop
  guard : O → O
  silent : Nat → O → Prop

/-
  Report `i` reaches the object along references reported
  one after another.
-/
inductive ReachedInOrder
    (rules : OrderRules O)
    (reports : List (Report O)) : Nat → O → Prop
  | root {i : Nat} {r : Report O} :
      reports[i]? = some r → r.referrer = none →
        rules.takes r.referee →
          ReachedInOrder rules reports i r.referee
  | start {i : Nat} {r : Report O} {a : O} :
      reports[i]? = some r → r.referrer = some a →
        rules.starts i a → rules.takes r.referee →
          ReachedInOrder rules reports i r.referee
  | unguarded {i j : Nat} {r : Report O} {a : O} :
      ReachedInOrder rules reports j a → j < i →
        reports[i]? = some r → r.referrer = some a →
          rules.silent i (rules.guard a) →
            rules.takes r.referee →
              ReachedInOrder rules reports i r.referee
  | guarded {i j k : Nat} {r : Report O} {a : O} :
      ReachedInOrder rules reports j a → j < i →
        reports[i]? = some r → r.referrer = some a →
          ReachedInOrder rules reports k (rules.guard a) →
            k < i → rules.takes r.referee →
              ReachedInOrder rules reports i r.referee

variable {rules : OrderRules O}
variable {i : Nat}

def InOrderBefore
    (rules : OrderRules O)
    (reports : List (Report O))
    (n : Nat)
    (o : O) : Prop :=
  ∃ i, i < n ∧ ReachedInOrder rules reports i o

/- The holder of report `n`, if there is one, passes it on. -/
def Passes
    (rules : OrderRules O)
    (reports : List (Report O))
    (n : Nat)
    (r : Report O) : Prop :=
  ∀ a, r.referrer = some a →
    rules.starts n a ∨
      (InOrderBefore rules reports n a ∧
        (rules.silent n (rules.guard a) ∨
          InOrderBefore rules reports n (rules.guard a)))

theorem ReachedInOrder.takes
    (hReached : ReachedInOrder rules reports i o) :
    rules.takes o := by
  cases hReached with
  | root _ _ hTakes => exact hTakes
  | start _ _ _ hTakes => exact hTakes
  | unguarded _ _ _ _ _ hTakes => exact hTakes
  | guarded _ _ _ _ _ _ hTakes => exact hTakes

theorem ReachedInOrder.exists_report
    (hReached : ReachedInOrder rules reports i o) :
    ∃ r, reports[i]? = some r ∧ r.referee = o := by
  cases hReached with
  | root hAt _ _ => exact ⟨_, hAt, rfl⟩
  | start hAt _ _ _ => exact ⟨_, hAt, rfl⟩
  | unguarded _ _ hAt _ _ _ => exact ⟨_, hAt, rfl⟩
  | guarded _ _ hAt _ _ _ _ => exact ⟨_, hAt, rfl⟩

theorem InOrderBefore.reported
    (hReached : InOrderBefore rules reports n o) :
    ReportedBefore reports n o := by
  rcases hReached with ⟨i, hLt, hReached⟩
  exact ⟨i, hLt, hReached.exists_report⟩

/- Every report that reaches an object has a number. -/
theorem inOrderBefore_length_iff :
    InOrderBefore rules reports reports.length o ↔
      ∃ i, ReachedInOrder rules reports i o := by
  constructor
  · rintro ⟨i, _, hReached⟩
    exact ⟨i, hReached⟩
  · rintro ⟨i, hReached⟩
    rcases hReached.exists_report with ⟨r, hAt, _⟩
    exact ⟨i, (List.getElem?_eq_some_iff.mp hAt).1,
      hReached⟩

theorem reachedInOrder_iff
    (hAt : reports[n]? = some r) :
    ReachedInOrder rules reports n o ↔
      r.referee = o ∧ rules.takes o ∧
        Passes rules reports n r := by
  constructor
  · intro hReached
    refine ⟨?_, hReached.takes, ?_⟩
    · rcases hReached.exists_report with ⟨q, hQ, hEq⟩
      rw [hAt] at hQ
      cases hQ
      exact hEq
    · intro b hSome
      cases hReached with
      | root hQ hNone _ =>
          rw [hAt] at hQ
          cases hQ
          rw [hNone] at hSome
          cases hSome
      | start hQ hReferrer hStarts _ =>
          rw [hAt] at hQ
          cases hQ
          rw [hReferrer] at hSome
          cases hSome
          exact Or.inl hStarts
      | unguarded hBefore hLt hQ hReferrer hSilent _ =>
          rw [hAt] at hQ
          cases hQ
          rw [hReferrer] at hSome
          cases hSome
          exact Or.inr ⟨⟨_, hLt, hBefore⟩, Or.inl hSilent⟩
      | guarded hBefore hLt hQ hReferrer hGuard hLtK _ =>
          rw [hAt] at hQ
          cases hQ
          rw [hReferrer] at hSome
          cases hSome
          exact Or.inr ⟨⟨_, hLt, hBefore⟩,
            Or.inr ⟨_, hLtK, hGuard⟩⟩
  · rintro ⟨rfl, hTakes, hPasses⟩
    cases hReferrer : r.referrer with
    | none => exact .root hAt hReferrer hTakes
    | some a =>
        rcases hPasses a hReferrer with
          hStarts | ⟨⟨j, hLt, hBefore⟩,
            hSilent | ⟨k, hLtK, hGuard⟩⟩
        · exact .start hAt hReferrer hStarts hTakes
        · exact .unguarded hBefore hLt hAt hReferrer hSilent
            hTakes
        · exact .guarded hBefore hLt hAt hReferrer hGuard
            hLtK hTakes

theorem inOrderBefore_succ_iff
    (hAt : reports[n]? = some r) :
    InOrderBefore rules reports (n + 1) o ↔
      InOrderBefore rules reports n o ∨
        (r.referee = o ∧ rules.takes o ∧
          Passes rules reports n r) := by
  rw [← reachedInOrder_iff hAt]
  constructor
  · rintro ⟨i, hLt, hReached⟩
    rcases Nat.lt_succ_iff_lt_or_eq.mp hLt with hOld | hEq
    · exact Or.inl ⟨i, hOld, hReached⟩
    · rw [hEq] at hReached
      exact Or.inr hReached
  · rintro (⟨i, hLt, hReached⟩ | hReached)
    · exact ⟨i, Nat.lt_succ_of_lt hLt, hReached⟩
    · exact ⟨n, Nat.lt_succ_self n, hReached⟩

------------------------------------------------------------
-- Steps
------------------------------------------------------------

variable [DecidableEq O]
variable [Zero T]
variable {callback : HeapReferenceCallback T U}
variable {s : Tagged O T U}

/-
  What every callback preserves, of a reference whose holder
  was reported, holds after the traversal.
-/
theorem followReferences_steps
    (Inv : Nat → Tagged O T U → Prop)
    (hStop :
      ∀ n s r, Inv n s →
        Held h initialObject reports n r →
          (h.invoke callback r s).2 ≠ .stop)
    (hStep :
      ∀ n s r, Inv n s → reports[n]? = some r →
        Held h initialObject reports n r →
          Inv (n + 1) (h.invoke callback r s).1)
    (hReports :
      h.FollowReferences initialObject callback s reports)
    (hInit : Inv 0 s) :
    Inv reports.length
      (h.followReferences initialObject callback s
        reports) := by
  have hBoth :=
    Worklist.replay_steps
      (fun n state =>
        Inv n state.data ∧
          ∀ q ∈ state.pending,
            Held h initialObject reports n q)
      ?_ hReports.1.1 ?_
  · exact hBoth.1
  · rintro n state r ⟨hInv, hPending⟩ hAt hMem
    have hHeld := hPending r hMem
    refine ⟨?_, ?_⟩
    · rw [Worklist.report_data]
      exact hStep n state.data r hInv hAt hHeld
    · have hErase :
          ∀ q ∈ state.pending.erase r,
            Held h initialObject reports (n + 1) q := by
        intro q hQ
        exact (hPending q (List.mem_of_mem_erase hQ)).succ
      rcases Worklist.report_cases (g := h.graph)
          (hStop n state.data r hInv hHeld) with
        ⟨_, hRest, _⟩ | ⟨_, _, hRest, _⟩
      · rw [hRest]
        exact hErase
      · rw [hRest]
        intro q hQ
        rcases List.mem_append.mp hQ with hOld | hOut
        · exact hErase q hOld
        · exact Or.inr ⟨r.referee, hOut,
            Or.inr ⟨n, Nat.lt_succ_self n, r, hAt, rfl⟩⟩
  · refine ⟨?_, ?_⟩
    · cases initialObject with
      | none => exact hInit
      | some o => exact hInit
    · intro q hQ
      cases initialObject with
      | none => exact Or.inl ⟨rfl, hQ⟩
      | some o => exact Or.inr ⟨o, hQ, Or.inl rfl⟩

------------------------------------------------------------
-- Complete Orders
------------------------------------------------------------

/-
  Every reference met so far is reported or pending, and
  every object reported so far has been visited.
-/
structure Accounted
    (h : Heap O)
    (init : List (Report O))
    (reports : List (Report O))
    (n : Nat)
    (state : Worklist.State O (Report O) (Tagged O T U)) :
    Prop where
  met :
    ∀ r ∈ init, r ∈ reports.take n ∨ r ∈ state.pending
  out :
    ∀ o ∈ state.expanded, ∀ r ∈ h.reportsOf o,
      r ∈ reports.take n ∨ r ∈ state.pending
  visited :
    ∀ r ∈ reports.take n, r.referee ∈ state.expanded
  roots :
    state.pending.countP (fun r => r.referrer.isNone) +
        (reports.take n).countP
          (fun r => r.referrer.isNone) =
      init.countP (fun r => r.referrer.isNone)

omit [DecidableEq O] in
theorem take_succ_of_getElem?
    (hAt : reports[n]? = some r) :
    reports.take (n + 1) = reports.take n ++ [r] := by
  rw [List.take_add_one, hAt]
  rfl

/- A callback that visits every object keeps the account. -/
theorem Accounted.report
    {init : List (Report O)}
    {state : Worklist.State O (Report O) (Tagged O T U)}
    (hAccounted : Accounted h init reports n state)
    (hAt : reports[n]? = some r)
    (hPending : r ∈ state.pending)
    (hVisit :
      (h.invoke callback r state.data).2 = .visit) :
    Accounted h init reports (n + 1)
      (Worklist.report h.graph (h.invoke callback) r
        state) := by
  have hTake := take_succ_of_getElem? hAt
  have hStop :
      (h.invoke callback r state.data).2 ≠ .stop := by
    rw [hVisit]
    exact Worklist.Signal.noConfusion
  have hMove :
      ∀ q, q ∈ reports.take n ∨ q ∈ state.pending →
        q ∈ reports.take (n + 1) ∨
          q ∈ state.pending.erase r := by
    intro q hQ
    rw [hTake]
    by_cases hEq : q = r
    · rw [hEq]
      exact Or.inl (List.mem_append_right _
        (List.mem_singleton_self r))
    · exact hQ.imp (List.mem_append_left _)
        (List.mem_erase_of_ne hEq).mpr
  have hCount :
      (state.pending.erase r).countP
            (fun r => r.referrer.isNone) +
          (reports.take (n + 1)).countP
            (fun r => r.referrer.isNone) =
        init.countP (fun r => r.referrer.isNone) := by
    have hPerm :=
      (List.perm_cons_erase hPending).countP_eq
        (fun r => r.referrer.isNone)
    rw [List.countP_cons] at hPerm
    rw [hTake, List.countP_append, List.countP_singleton,
      ← hAccounted.roots, hPerm]
    omega
  have hVisited :
      ∀ q ∈ reports.take (n + 1),
        q.referee ∈ state.expanded ∨ q.referee = r.referee := by
    intro q hQ
    rw [hTake] at hQ
    rcases List.mem_append.mp hQ with hOld | hNew
    · exact Or.inl (hAccounted.visited q hOld)
    · rw [List.mem_singleton.mp hNew]
      exact Or.inr rfl
  rcases Worklist.report_cases (g := h.graph) hStop with
    ⟨hSkip, hRest, hExpanded⟩ | ⟨_, _, hRest, hExpanded⟩
  · have hOld : r.referee ∈ state.expanded := by
      rcases hSkip with hSkip | hOld
      · rw [hVisit] at hSkip
        cases hSkip
      · exact hOld
    constructor
    · rw [hRest]
      exact fun q hQ => hMove q (hAccounted.met q hQ)
    · rw [hRest, hExpanded]
      exact fun o hO q hQ =>
        hMove q (hAccounted.out o hO q hQ)
    · rw [hExpanded]
      intro q hQ
      rcases hVisited q hQ with hMem | hEq
      · exact hMem
      · rw [hEq]
        exact hOld
    · rw [hRest]
      exact hCount
  · constructor
    · rw [hRest]
      intro q hQ
      exact (hMove q (hAccounted.met q hQ)).imp_right
        (List.mem_append_left _)
    · rw [hRest, hExpanded]
      intro o hO q hQ
      rcases List.mem_cons.mp hO with hNew | hOld
      · rw [hNew] at hQ
        exact Or.inr (List.mem_append_right _ hQ)
      · exact (hMove q (hAccounted.out o hOld q hQ)).imp_right
          (List.mem_append_left _)
    · rw [hExpanded]
      intro q hQ
      rcases hVisited q hQ with hMem | hEq
      · exact List.mem_cons_of_mem _ hMem
      · rw [hEq]
        exact List.mem_cons_self
    · rw [hRest, List.countP_append]
      have hNone :
          (h.graph.out r.referee).countP
            (fun r => r.referrer.isNone) = 0 := by
        rw [List.countP_eq_zero]
        intro q hQ
        rw [((h.mem_reportsOf_iff r.referee q).mp hQ).1]
        exact Bool.false_ne_true
      have hTarget : h.graph.target r = r.referee := rfl
      rw [hTarget, hNone]
      exact hCount

------------------------------------------------------------
-- Multiplicities
------------------------------------------------------------

/-
  In a traversal from an object, every reference of a
  visited object is reported or pending as often as the
  object holds it, and no other reference is.
-/
structure Counted
    (h : Heap O)
    (reports : List (Report O))
    (n : Nat)
    (state : Worklist.State O (Report O) (Tagged O T U)) :
    Prop where
  known :
    ∀ q, q ∈ reports.take n ∨ q ∈ state.pending →
      ∃ a ∈ state.expanded, q ∈ h.reportsOf a
  count :
    ∀ a ∈ state.expanded, ∀ q ∈ h.reportsOf a,
      (reports.take n).count q + state.pending.count q =
        (h.reportsOf a).count q

omit [DecidableEq O] in
theorem reportsOf_unique
    {a b : O}
    (hA : r ∈ h.reportsOf a)
    (hB : r ∈ h.reportsOf b) :
    a = b := by
  have hReferrer := ((h.mem_reportsOf_iff a r).mp hA).1
  rw [((h.mem_reportsOf_iff b r).mp hB).1] at hReferrer
  exact (Option.some.inj hReferrer).symm

omit [Zero T] in
theorem counted_zero
    (s : Tagged O T U)
    (a : O) :
    Counted h reports 0 (h.traversal (some a) s) := by
  constructor
  · rintro q (hTaken | hPending)
    · exact absurd hTaken List.not_mem_nil
    · exact ⟨a, List.mem_singleton_self a, hPending⟩
  · intro b hMem q _
    rw [List.mem_singleton.mp hMem, List.take_zero,
      List.count_nil, Nat.zero_add]
    rfl

theorem Counted.report
    {state : Worklist.State O (Report O) (Tagged O T U)}
    (hCounted : Counted h reports n state)
    (hAt : reports[n]? = some r)
    (hPending : r ∈ state.pending)
    (hStop :
      (h.invoke callback r state.data).2 ≠ .stop) :
    Counted h reports (n + 1)
      (Worklist.report h.graph (h.invoke callback) r
        state) := by
  have hTake := take_succ_of_getElem? hAt
  have hKnown :
      ∀ q, q ∈ reports.take (n + 1) ∨
          q ∈ state.pending.erase r →
        ∃ a ∈ state.expanded, q ∈ h.reportsOf a := by
    intro q hQ
    apply hCounted.known q
    rw [hTake, List.mem_append] at hQ
    rcases hQ with (hOld | hNew) | hRest
    · exact Or.inl hOld
    · rw [List.mem_singleton.mp hNew]
      exact Or.inr hPending
    · exact Or.inr (List.mem_of_mem_erase hRest)
  have hCount :
      ∀ q,
        (reports.take (n + 1)).count q +
            (state.pending.erase r).count q =
          (reports.take n).count q +
            state.pending.count q := by
    intro q
    have hPerm :=
      (List.perm_cons_erase hPending).count_eq q
    rw [List.count_cons] at hPerm
    rw [hTake, List.count_append, List.count_singleton,
      hPerm]
    omega
  rcases Worklist.report_cases (g := h.graph) hStop with
    ⟨_, hRest, hExpanded⟩ | ⟨_, hNew, hRest, hExpanded⟩
  · constructor
    · rw [hRest, hExpanded]
      exact hKnown
    · rw [hRest, hExpanded]
      intro a hA q hQ
      rw [hCount q]
      exact hCounted.count a hA q hQ
  · constructor
    · rw [hRest, hExpanded]
      intro q hQ
      rw [List.mem_append] at hQ
      rcases hQ with hTaken | hOld | hOut
      · rcases hKnown q (Or.inl hTaken) with ⟨a, hA, hMem⟩
        exact ⟨a, List.mem_cons_of_mem _ hA, hMem⟩
      · rcases hKnown q (Or.inr hOld) with ⟨a, hA, hMem⟩
        exact ⟨a, List.mem_cons_of_mem _ hA, hMem⟩
      · exact ⟨r.referee, List.mem_cons_self, hOut⟩
    · rw [hRest, hExpanded]
      intro a hA q hQ
      have hTarget :
          h.graph.out (h.graph.target r) =
            h.reportsOf r.referee := rfl
      rw [List.count_append, ← Nat.add_assoc, hCount q,
        hTarget]
      rcases List.mem_cons.mp hA with hEq | hOld
      · -- The references of a new object are all pending.
        have hNone :
            ¬ (q ∈ reports.take n ∨ q ∈ state.pending) := by
          intro hMet
          rcases hCounted.known q hMet with ⟨b, hB, hMem⟩
          rw [reportsOf_unique hMem hQ, hEq] at hB
          exact hNew hB
        rw [not_or] at hNone
        rw [List.count_eq_zero.mpr hNone.1,
          List.count_eq_zero.mpr hNone.2, hEq]
        exact Nat.zero_add _
      · have hNot : q ∉ h.reportsOf r.referee := by
          intro hMem
          apply hNew
          have hEq := reportsOf_unique hMem hQ
          change r.referee ∈ state.expanded
          rw [hEq]
          exact hOld
        rw [List.count_eq_zero.mpr hNot, Nat.add_zero]
        exact hCounted.count a hOld q hQ

omit [Zero T] in
/- The reports of a visited object, when none is pending. -/
theorem Counted.perm
    {state : Worklist.State O (Report O) (Tagged O T U)}
    (hCounted : Counted h reports reports.length state)
    (hNone : state.pending = [])
    {a : O}
    (hA : a ∈ state.expanded) :
    (reports.filter (fun r => r.referrer = some a)).Perm
      (h.reportsOf a) := by
  have hKnown := hCounted.known
  have hCount := hCounted.count a hA
  rw [hNone, List.take_length] at hKnown hCount
  rw [List.perm_iff_count]
  intro q
  by_cases hMem : q ∈ h.reportsOf a
  · have hReferrer := ((h.mem_reportsOf_iff a q).mp hMem).1
    rw [List.count_filter (by simp [hReferrer])]
    exact hCount q hMem
  · rw [List.count_eq_zero.mpr hMem, List.count_eq_zero]
    intro hIn
    rcases List.mem_filter.mp hIn with ⟨hTaken, hYes⟩
    rcases hKnown q (Or.inl hTaken) with ⟨b, _, hOut⟩
    have hReferrer := ((h.mem_reportsOf_iff b q).mp hOut).1
    rw [of_decide_eq_true hYes] at hReferrer
    rw [Option.some.inj hReferrer] at hMem
    exact hMem hOut

------------------------------------------------------------
-- Traversals That Visit Every Object
------------------------------------------------------------

variable
  (Inv : Worklist.State O (Report O) (Tagged O T U) → Prop)
variable
  (hStep :
    ∀ state r, Inv state → r ∈ state.pending →
      Inv (Worklist.report h.graph (h.invoke callback) r
        state))
variable
  (hVisit :
    ∀ state r, Inv state → r ∈ state.pending →
      (h.invoke callback r state.data).2 = .visit)
include hStep hVisit

theorem accounted_followReferences
    (hInit : Inv (h.traversal none s))
    (hReports :
      h.FollowReferences none callback s reports) :
    Accounted h h.rootReports reports reports.length
      (Worklist.replay h.graph (h.invoke callback) reports
        (h.traversal none s)) := by
  have hBoth :=
    Worklist.replay_steps
      (fun n state =>
        Inv state ∧
          Accounted h h.rootReports reports n state)
      ?_ hReports.1.1 ?_
  · exact hBoth.2
  · rintro n state r ⟨hInv, hAccounted⟩ hAt hPending
    exact ⟨hStep state r hInv hPending,
      hAccounted.report hAt hPending
        (hVisit state r hInv hPending)⟩
  · refine ⟨hInit, ?_, ?_, ?_, ?_⟩
    · exact fun r hMem => Or.inr hMem
    · intro o hMem
      exact absurd hMem List.not_mem_nil
    · intro r hMem
      exact absurd hMem List.not_mem_nil
    · rfl

/- Reports before that of a root reference are of roots. -/
theorem roots_first
    (hInit : Inv (h.traversal none s))
    (hReports :
      h.FollowReferences none callback s reports)
    {i : Nat}
    {q : Report O}
    (hLt : i < n)
    (hAt : reports[n]? = some r)
    (hRoot : r.referrer = none)
    (hI : reports[i]? = some q) :
    q.referrer = none := by
  have hAccounted :=
    accounted_followReferences Inv hStep hVisit hInit
      hReports
  have hCount := hAccounted.roots
  rw [hReports.1.2, List.take_length, List.countP_nil,
    Nat.zero_add] at hCount
  have hRest := hReports.2
  change ∀ r ∈ reports.drop h.rootReports.length,
    r.referrer ≠ none at hRest
  have hAll :
      h.rootReports.countP (fun r => r.referrer.isNone) =
        h.rootReports.length := by
    rw [List.countP_eq_length]
    intro p hP
    rw [((h.mem_rootReports_iff p).mp hP).1]
    rfl
  have hDrop :
      (reports.drop h.rootReports.length).countP
        (fun r => r.referrer.isNone) = 0 := by
    rw [List.countP_eq_zero]
    intro p hP hNone
    exact hRest p hP (Option.isNone_iff_eq_none.mp hNone)
  have hTake :
      (reports.take h.rootReports.length).countP
          (fun r => r.referrer.isNone) =
        (reports.take h.rootReports.length).length := by
    have hSplit := hCount
    rw [← List.take_append_drop h.rootReports.length reports,
      List.countP_append, hDrop, hAll] at hSplit
    have hLe :=
      List.length_take_le h.rootReports.length reports
    have hCountLe :=
      List.countP_le_length
        (p := fun r : Report O => r.referrer.isNone)
        (l := reports.take h.rootReports.length)
    omega
  have hBound : n < h.rootReports.length := by
    by_contra hGe
    refine hRest r ?_ hRoot
    rw [List.mem_iff_getElem?]
    refine ⟨n - h.rootReports.length, ?_⟩
    rw [List.getElem?_drop, ← hAt]
    congr 1
    omega
  have hMem : q ∈ reports.take h.rootReports.length := by
    rw [List.mem_iff_getElem?]
    refine ⟨i, ?_⟩
    rw [List.getElem?_take, if_pos (hLt.trans hBound), hI]
  exact Option.isNone_iff_eq_none.mp
    ((List.countP_eq_length.mp hTake) q hMem)

/- Every object some root leads to is reported. -/
theorem reported_of_reachable
    (hInit : Inv (h.traversal none s))
    (hReports :
      h.FollowReferences none callback s reports)
    {x : Reference O}
    (hRoot : x ∈ h.roots)
    (hPath : h.Reachable x.referee o) :
    ReportedBefore reports reports.length o := by
  have hAccounted :=
    accounted_followReferences Inv hStep hVisit hInit
      hReports
  have hNone := hReports.1.2
  have hReported :
      ∀ r ∈ reports,
        ReportedBefore reports reports.length
          r.referee := by
    intro r hMem
    rcases List.mem_iff_getElem?.mp hMem with ⟨i, hI⟩
    exact ⟨i, (List.getElem?_eq_some_iff.mp hI).1, r, hI,
      rfl⟩
  have hTake := List.take_length (l := reports)
  induction hPath with
  | refl =>
      have hMem :
          (⟨none, x⟩ : Report O) ∈ h.rootReports :=
        (h.mem_rootReports_iff _).mpr ⟨rfl, hRoot⟩
      rcases hAccounted.met _ hMem with hIn | hPending
      · rw [hTake] at hIn
        exact hReported _ hIn
      · rw [hNone] at hPending
        exact absurd hPending List.not_mem_nil
  | @tail a b _ hRefers ih =>
      rcases ih with ⟨i, _, q, hQ, hReferee⟩
      rcases hRefers with ⟨y, hY, hEq⟩
      have hExpanded := hAccounted.visited q (by
        rw [hTake]
        exact List.mem_of_getElem? hQ)
      have hMem :
          (⟨some a, y⟩ : Report O) ∈
            h.reportsOf q.referee :=
        (h.mem_reportsOf_iff _ _).mpr
          ⟨by rw [hReferee], by rw [hReferee]; exact hY⟩
      rcases hAccounted.out _ hExpanded _ hMem with
        hIn | hPending
      · rw [hTake] at hIn
        rw [← hEq]
        exact hReported _ hIn
      · rw [hNone] at hPending
        exact absurd hPending List.not_mem_nil

end Heap

end MemoryAgent
