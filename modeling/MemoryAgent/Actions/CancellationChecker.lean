import Mathlib.Algebra.Group.Nat.Defs
import Mathlib.Data.List.Basic
import Mathlib.Tactic.Common

/-
  `CancellationChecker`: most calls only count, and one call
  in many tests the cancellation file and the deadline.

  Key definitions include:
    * `CancellationChecker.shouldStopExecutionSyscallSafe`
    * `CancellationChecker.Tests`
    * `CancellationChecker.Bounded`

  Main results:
    * `exists_hit_of_decreasing`
    * `CancellationChecker.Bounded.run`
    * `CancellationChecker.shouldStopExecution_checked`
-/

------------------------------------------------------------
-- Measures
------------------------------------------------------------

namespace MemoryAgent

/-
  Steps that keep an invariant and make a measure smaller,
  unless the state has a property, lead to such a state.
-/
theorem exists_hit_of_decreasing
    {S I : Type}
    {step : S → I → S}
    {Inv P : S → Prop}
    {measure : S → Nat}
    {inputs : List I}
    (s : S)
    (hInv : Inv s)
    (hStep : ∀ s i, Inv s → Inv (step s i))
    (hDecreasing :
      ∀ s i, Inv s → ¬ P s → measure (step s i) < measure s)
    (hLength : measure s < inputs.length) :
    ∃ before i after,
      inputs = before ++ i :: after ∧
        P (before.foldl step s) := by
  induction inputs generalizing s with
  | nil => exact absurd hLength (Nat.not_lt_zero _)
  | cons i rest ih =>
      by_cases hP : P s
      · exact ⟨[], i, rest, rfl, hP⟩
      · have hLess := hDecreasing s i hInv hP
        rw [List.length_cons] at hLength
        rcases ih (step s i) (hStep s i hInv) (by omega) with
          ⟨before, j, after, hEq, hHit⟩
        exact ⟨i :: before, j, after,
          congrArg (List.cons i) hEq, hHit⟩

------------------------------------------------------------
-- The Checker
------------------------------------------------------------

/-
  Times are nanoseconds of the steady clock.  Both counters
  have the type `unsigned int`.
-/
structure CancellationChecker where
  finishTime : Int
  lastSuccessfulCheck : Int
  checksToPerform : UInt32
  performedChecks : UInt32
deriving DecidableEq, Repr

namespace CancellationChecker

def defaultChecksToPerformValue : UInt32 :=
  10000

/- `std::numeric_limits<unsigned int>::max()`. -/
def maxUnsignedInt : UInt32 :=
  4294967295

/- `std::chrono::seconds(1)`. -/
def oneSecond : Int :=
  1000000000

/- The clock and the cancellation file during a call. -/
structure Reading where
  now : Int
  fileExists : Bool
deriving DecidableEq, Repr

def initial (finishTime : Int) : CancellationChecker where
  finishTime := finishTime
  lastSuccessfulCheck := 0
  checksToPerform := 0
  performedChecks := 0

def shouldStopExecution
    (c : CancellationChecker)
    (r : Reading) : Bool :=
  r.fileExists || decide (c.finishTime < r.now)

/- The answer of a call, and what it does to the counters. -/
def shouldStopExecutionSyscallSafe
    (c : CancellationChecker)
    (r : Reading) : Bool × CancellationChecker :=
  if c.performedChecks = c.checksToPerform then
    let checksToPerform :=
      if r.now - c.lastSuccessfulCheck < oneSecond ∧
          c.checksToPerform < maxUnsignedInt / 10 then
        c.checksToPerform * 10
      else
        defaultChecksToPerformValue
    (r.fileExists || decide (c.finishTime < r.now),
      { c with
        checksToPerform := checksToPerform
        lastSuccessfulCheck := r.now
        performedChecks := 0 })
  else
    (false,
      { c with performedChecks := c.performedChecks + 1 })

def next
    (c : CancellationChecker)
    (r : Reading) : CancellationChecker :=
  (c.shouldStopExecutionSyscallSafe r).2

/- A sequence of calls, one for each reading. -/
def run
    (c : CancellationChecker)
    (readings : List Reading) : CancellationChecker :=
  readings.foldl next c

/-
  The next call really tests: its answer is that of the test
  whatever the clock and the file are.
-/
def Tests (c : CancellationChecker) : Prop :=
  ∀ r, (c.shouldStopExecutionSyscallSafe r).1 =
    c.shouldStopExecution r

------------------------------------------------------------
-- The Invariant
------------------------------------------------------------

/- The values of `checksToPerform`. -/
def BackOff (checks : UInt32) : Prop :=
  checks = 0 ∨
    ∃ k, 4 ≤ k ∧ k ≤ 9 ∧ checks.toNat = 10 ^ k

structure Bounded (c : CancellationChecker) : Prop where
  le : c.performedChecks ≤ c.checksToPerform
  backOff : BackOff c.checksToPerform

variable {c : CancellationChecker}
variable {checks : UInt32}

theorem tests_iff :
    c.Tests ↔ c.performedChecks = c.checksToPerform := by
  constructor
  · intro hTests
    by_contra hNe
    have hFalse := hTests ⟨0, true⟩
    rw [shouldStopExecutionSyscallSafe, if_neg hNe] at hFalse
    cases hFalse
  · intro hEq r
    rw [shouldStopExecutionSyscallSafe, if_pos hEq]
    rfl

theorem BackOff.le
    (hBackOff : BackOff checks) :
    checks.toNat ≤ 10 ^ 9 := by
  rcases hBackOff with hZero | ⟨k, _, hLe, hEq⟩
  · rw [hZero]
    exact Nat.zero_le _
  · rw [hEq]
    exact Nat.pow_le_pow_right (by decide) hLe

theorem toNat_lt_of_lt
    (hLt : checks < maxUnsignedInt / 10) :
    checks.toNat < 429496729 :=
  UInt32.lt_iff_toNat_lt.mp hLt

/- The factor is applied only where it does not wrap. -/
theorem toNat_mul_ten
    (hLt : checks < maxUnsignedInt / 10) :
    (checks * 10).toNat = checks.toNat * 10 := by
  have hLtNat := toNat_lt_of_lt hLt
  rw [UInt32.toNat_mul]
  apply Nat.mod_eq_of_lt
  change checks.toNat * 10 < 2 ^ 32
  omega

theorem BackOff.mul
    (hBackOff : BackOff checks)
    (hLt : checks < maxUnsignedInt / 10) :
    BackOff (checks * 10) := by
  have hMul := toNat_mul_ten hLt
  have hLtNat := toNat_lt_of_lt hLt
  rcases hBackOff with hZero | ⟨k, hFour, hNine, hEq⟩
  · rw [hZero]
    exact Or.inl rfl
  · have hLtK : k < 9 := by
      rcases Nat.lt_or_eq_of_le hNine with hLt | hEqK
      · exact hLt
      · rw [hEq, hEqK] at hLtNat
        exact absurd hLtNat (by decide)
    refine Or.inr ⟨k + 1, by omega, hLtK, ?_⟩
    rw [hMul, hEq, Nat.pow_succ]

theorem backOff_default :
    BackOff defaultChecksToPerformValue :=
  Or.inr ⟨4, Nat.le_refl 4, by decide, rfl⟩

theorem Bounded.init
    (finishTime : Int) :
    (initial finishTime).Bounded :=
  ⟨UInt32.le_refl 0, Or.inl rfl⟩

theorem Bounded.toNat_lt
    (hBounded : c.Bounded)
    (hNe : c.performedChecks ≠ c.checksToPerform) :
    c.performedChecks.toNat < c.checksToPerform.toNat :=
  Nat.lt_of_le_of_ne
    (UInt32.le_iff_toNat_le.mp hBounded.le)
    (fun hEq => hNe (UInt32.toNat_inj.mp hEq))

theorem Bounded.toNat_succ
    (hBounded : c.Bounded)
    (hNe : c.performedChecks ≠ c.checksToPerform) :
    (c.performedChecks + 1).toNat =
      c.performedChecks.toNat + 1 := by
  have hLt := hBounded.toNat_lt hNe
  have hMax := hBounded.backOff.le
  rw [UInt32.toNat_add]
  change (c.performedChecks.toNat + 1) % 2 ^ 32 = _
  omega

/- One call keeps the bounds. -/
theorem Bounded.next
    (hBounded : c.Bounded)
    (r : Reading) :
    (c.next r).Bounded := by
  unfold CancellationChecker.next
    shouldStopExecutionSyscallSafe
  split
  · refine ⟨UInt32.zero_le, ?_⟩
    dsimp only
    split
    · next hBoth => exact hBounded.backOff.mul hBoth.2
    · exact backOff_default
  · next hNe =>
      refine ⟨?_, hBounded.backOff⟩
      apply UInt32.le_iff_toNat_le.mpr
      rw [hBounded.toNat_succ hNe]
      exact hBounded.toNat_lt hNe

theorem Bounded.run
    (hBounded : c.Bounded)
    (readings : List Reading) :
    (c.run readings).Bounded := by
  induction readings generalizing c with
  | nil => exact hBounded
  | cons r readings ih => exact ih (hBounded.next r)

@[simp] theorem next_finishTime
    (c : CancellationChecker)
    (r : Reading) :
    (c.next r).finishTime = c.finishTime := by
  unfold CancellationChecker.next
    shouldStopExecutionSyscallSafe
  split
  · rfl
  · rfl

@[simp] theorem run_finishTime
    (c : CancellationChecker)
    (readings : List Reading) :
    (c.run readings).finishTime = c.finishTime := by
  induction readings generalizing c with
  | nil => rfl
  | cons r readings ih =>
      exact (ih (c.next r)).trans (next_finishTime c r)

------------------------------------------------------------
-- Runs
------------------------------------------------------------

/- The calls that only count before the next test. -/
def callsToTest (c : CancellationChecker) : Nat :=
  c.checksToPerform.toNat - c.performedChecks.toNat

/- A call that does not test brings the test nearer. -/
theorem Bounded.callsToTest_next
    (hBounded : c.Bounded)
    (hNot : ¬ c.Tests)
    (r : Reading) :
    (c.next r).callsToTest < c.callsToTest := by
  rw [tests_iff] at hNot
  have hSucc := hBounded.toNat_succ hNot
  have hLt := hBounded.toNat_lt hNot
  unfold CancellationChecker.next
    shouldStopExecutionSyscallSafe callsToTest
  rw [if_neg hNot]
  dsimp only
  omega

/-
  After any calls, one of the next 10^9 + 1 calls tests, and
  it stops the execution if the user has cancelled or the
  time is over.
-/
theorem shouldStopExecution_checked
    (finishTime : Int)
    (readings window : List Reading)
    (c : CancellationChecker)
    (hRun : (initial finishTime).run readings = c)
    (hLength : window.length = 10 ^ 9 + 1) :
    c.performedChecks ≤ c.checksToPerform ∧
      BackOff c.checksToPerform ∧
      (c.checksToPerform < maxUnsignedInt / 10 →
        (c.checksToPerform * 10).toNat =
          c.checksToPerform.toNat * 10) ∧
      ∃ before r after,
        window = before ++ r :: after ∧
          (c.run before).Tests ∧
          ((∀ r ∈ window, c.shouldStopExecution r = true) →
            ((c.run before).shouldStopExecutionSyscallSafe
              r).1 = true) := by
  have hBounded : c.Bounded :=
    hRun ▸ (Bounded.init finishTime).run readings
  refine ⟨hBounded.le, hBounded.backOff, toNat_mul_ten, ?_⟩
  have hMax := hBounded.backOff.le
  have hCalls : c.callsToTest < window.length := by
    unfold callsToTest
    omega
  rcases exists_hit_of_decreasing c hBounded
      (fun _ r hInv => hInv.next r)
      (fun _ r hInv hNot => hInv.callsToTest_next hNot r)
      hCalls with
    ⟨before, r, after, hWindow, hTests⟩
  refine ⟨before, r, after, hWindow, hTests, ?_⟩
  intro hPending
  have hMem : r ∈ window := by
    rw [hWindow]
    exact List.mem_append_right _ List.mem_cons_self
  have hStop := hPending r hMem
  refine (hTests r).trans ?_
  change (r.fileExists ||
    decide ((c.run before).finishTime < r.now)) = true
  rw [run_finishTime]
  exact hStop

/- The clock stands still, and the file is there. -/
theorem shouldStopExecution_checked_still :
    (∃ before r after,
      List.replicate (10 ^ 9 + 1) (Reading.mk 0 true) =
          before ++ r :: after ∧
        (((initial 0).run []).run before).Tests) := by
  rcases shouldStopExecution_checked 0 []
      (List.replicate (10 ^ 9 + 1) (Reading.mk 0 true))
      ((initial 0).run []) rfl List.length_replicate with
    ⟨_, _, _, before, r, after, hWindow, hTests, _⟩
  exact ⟨before, r, after, hWindow, hTests⟩

end CancellationChecker

end MemoryAgent
