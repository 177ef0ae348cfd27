import Mathlib.Data.List.Basic

/-
  Programs that make calls which may fail, and that ask now
  and then whether they have to stop.

  Key definitions include:
    * `Calls.Prog`
    * `Calls.World`
    * `Calls.run`
    * `Calls.quiet`
    * `Calls.Settles`
    * `Calls.Decides`

  Main results:
    * `Calls.run_eq_quiet`
    * `Calls.Settles.bind`
    * `Calls.Decides.bind`
    * `Calls.Decides.sweep`
-/

------------------------------------------------------------
-- Programs
------------------------------------------------------------

namespace MemoryAgent

namespace Calls

/- An error code; 0 is the code of success. -/
abbrev Error :=
  Int

def isOk (err : Error) : Bool :=
  err == 0

/-
  A program over the calls `C`.  A sweep is a call that goes
  through many objects; besides its code, the program sees
  whether the sweep ran to completion.  After `undefined`
  nothing is known of the behaviour, and `next` is only one
  of the ways to go on.
-/
inductive Prog (C α : Type) where
  | ret (a : α)
  | undefined (next : Prog C α)
  | shouldStop (next : Bool → Prog C α)
  | call (c : C) (next : Error → Prog C α)
  | sweep (c : C) (next : Error → Bool → Prog C α)

namespace Prog

variable {C α β : Type}

def bind : Prog C α → (α → Prog C β) → Prog C β
| ret a, f => f a
| undefined next, f => undefined (bind next f)
| shouldStop next, f =>
    shouldStop (fun b => bind (next b) f)
| call c next, f => call c (fun err => bind (next err) f)
| sweep c next, f =>
    sweep c (fun err done => bind (next err done) f)

instance : Monad (Prog C) where
  pure := ret
  bind := bind

end Prog

theorem Prog.bind_assoc
    {C α β γ : Type}
    (p : Prog C α)
    (f : α → Prog C β)
    (g : β → Prog C γ) :
    (p >>= f) >>= g = p >>= fun a => f a >>= g := by
  change (p.bind f).bind g = p.bind (fun a => (f a).bind g)
  induction p with
  | ret a => rfl
  | undefined next ih => exact congrArg Prog.undefined ih
  | shouldStop next ih =>
      exact congrArg Prog.shouldStop (funext ih)
  | call c next ih =>
      exact congrArg (Prog.call c) (funext ih)
  | sweep c next ih =>
      exact congrArg (Prog.sweep c)
        (funext fun err => funext (ih err))

------------------------------------------------------------
-- Runs
------------------------------------------------------------

/-
  What a run meets: the code of every call, the sweeps that
  the stop condition would cut short, and the times at which
  the user has cancelled or the deadline has passed.
-/
structure World (C : Type) where
  error : C → Error
  aborts : C → Bool
  cancelled : Nat → Bool
  timedOut : Nat → Bool
  stays :
    ∀ n, (cancelled n || timedOut n) = true →
      (cancelled (n + 1) || timedOut (n + 1)) = true

namespace World

variable {C : Type}

def stops
    (w : World C)
    (n : Nat) : Bool :=
  w.cancelled n || w.timedOut n

theorem stops_of_le
    (w : World C)
    {m n : Nat}
    (hLe : m ≤ n)
    (hStops : w.stops m = true) :
    w.stops n = true := by
  induction hLe with
  | refl => exact hStops
  | step _ ih => exact w.stays _ ih

end World

/-
  The value, the time after a run, and what it has done.
  The calls are all that the run makes.
-/
structure Run (C α : Type) where
  value : α
  time : Nat
  calls : List C
  completed : List C
  defined : Bool

variable {C α β : Type}

/-
  Every call and every question takes one unit of time.  A
  sweep can be cut short only when the stop condition holds
  at its end.
-/
def run
    (w : World C) :
    Prog C α → Nat → Run C α
| .ret a, n => ⟨a, n, [], [], true⟩
| .undefined next, n => { run w next n with defined := false }
| .shouldStop next, n => run w (next (w.stops n)) (n + 1)
| .call c next, n =>
    let rest := run w (next (w.error c)) (n + 1)
    { rest with calls := c :: rest.calls }
| .sweep c next, n =>
    let done :=
      isOk (w.error c) &&
        !(w.aborts c && w.stops (n + 1))
    let rest := run w (next (w.error c) done) (n + 1)
    { rest with
      calls := c :: rest.calls
      completed :=
        if done then c :: rest.completed
        else rest.completed }

/- A run in which nothing stops, with all its calls. -/
structure Trace (C α : Type) where
  value : α
  calls : List C
  completed : List C

def quiet
    (error : C → Error) :
    Prog C α → Trace C α
| .ret a => ⟨a, [], []⟩
| .undefined next => quiet error next
| .shouldStop next => quiet error (next false)
| .call c next =>
    let rest := quiet error (next (error c))
    { rest with calls := c :: rest.calls }
| .sweep c next =>
    let rest :=
      quiet error (next (error c) (isOk (error c)))
    { rest with
      calls := c :: rest.calls
      completed :=
        if isOk (error c) then c :: rest.completed
        else rest.completed }

/- The run in which nothing stops and nothing fails. -/
def undisturbed (p : Prog C α) : Trace C α :=
  quiet (fun _ => 0) p

theorem le_run_time
    (w : World C)
    (p : Prog C α)
    (n : Nat) :
    n ≤ (run w p n).time := by
  induction p generalizing n with
  | ret a => exact Nat.le_refl n
  | undefined next ih => exact ih n
  | shouldStop next ih =>
      exact Nat.le_trans (Nat.le_succ n) (ih _ _)
  | call c next ih => exact Nat.le_trans (Nat.le_succ n) (ih _ _)
  | sweep c next ih =>
      exact Nat.le_trans (Nat.le_succ n) (ih _ _ _)

/-
  As the stop condition stays, a run at whose end it does
  not hold has never met it.
-/
theorem run_eq_quiet
    (w : World C)
    (p : Prog C α)
    (n : Nat)
    (hEnd : w.stops (run w p n).time = false) :
    (run w p n).value = (quiet w.error p).value ∧
      (run w p n).completed =
        (quiet w.error p).completed := by
  have hBefore :
      ∀ m, m ≤ (run w p n).time → w.stops m = false := by
    intro m hLe
    cases hStops : w.stops m with
    | false => rfl
    | true =>
        rw [w.stops_of_le hLe hStops] at hEnd
        cases hEnd
  induction p generalizing n with
  | ret a => exact ⟨rfl, rfl⟩
  | undefined next ih => exact ih n hEnd hBefore
  | shouldStop next ih =>
      have hNow :=
        hBefore n (le_run_time w (.shouldStop next) n)
      simp only [run, hNow] at hEnd hBefore ⊢
      exact ih false (n + 1) hEnd hBefore
  | call c next ih =>
      exact ih _ (n + 1) hEnd hBefore
  | sweep c next ih =>
      have hNext :=
        hBefore (n + 1) (le_run_time w (next _ _) (n + 1))
      simp only [run, hNext, Bool.and_false, Bool.not_false,
        Bool.and_true] at hEnd hBefore ⊢
      rcases ih _ _ (n + 1) hEnd hBefore with
        ⟨hValue, hCompleted⟩
      refine ⟨hValue, ?_⟩
      simp only [quiet, hCompleted]

section Bind

variable (error : C → Error)
variable (p : Prog C α)
variable (f : α → Prog C β)

theorem quiet_bind :
    quiet error (p >>= f) =
      { value :=
          (quiet error (f (quiet error p).value)).value
        calls :=
          (quiet error p).calls ++
            (quiet error (f (quiet error p).value)).calls
        completed :=
          (quiet error p).completed ++
            (quiet error
              (f (quiet error p).value)).completed } := by
  change quiet error (p.bind f) = _
  induction p with
  | ret a => rfl
  | undefined next ih => exact ih
  | shouldStop next ih => exact ih false
  | call c next ih =>
      simp only [Prog.bind, quiet, ih, List.cons_append]
  | sweep c next ih =>
      simp only [Prog.bind, quiet, ih, List.cons_append]
      split <;> rfl

end Bind

------------------------------------------------------------
-- Failures
------------------------------------------------------------

/-
  A failure of a call in `D` spoils the value of the program,
  and no other failure makes a difference.
-/
structure Settles
    (D : C → Prop)
    (Good : α → Prop)
    (p : Prog C α) : Prop where
  good : Good (undisturbed p).value
  succeeds :
    ∀ error,
      (∀ c ∈ (undisturbed p).calls, D c → error c = 0) →
        (quiet error p).value = (undisturbed p).value ∧
          (quiet error p).completed =
            (undisturbed p).completed
  fails :
    ∀ error,
      (∃ c ∈ (undisturbed p).calls, D c ∧ error c ≠ 0) →
        ¬ Good (quiet error p).value
  completed :
    ∀ error,
      (quiet error p).completed ⊆ (undisturbed p).completed

variable {D : C → Prop}
variable {Good : α → Prop}
variable {GoodNext : β → Prop}
variable {p : Prog C α}
variable {f : α → Prog C β}

theorem settles_pure
    {a : α}
    (hGood : Good a) :
    Settles D Good (pure a) := by
  refine ⟨hGood, fun _ _ => ⟨rfl, rfl⟩, ?_,
    fun _ => List.Subset.refl _⟩
  rintro error ⟨c, hMem, _⟩
  exact absurd hMem List.not_mem_nil

/- A spoilt value has to spoil the rest. -/
theorem Settles.bind
    (hFirst : Settles D Good p)
    (hNext : Settles D GoodNext (f (undisturbed p).value))
    (hBad :
      ∀ a, ¬ Good a → ∀ error,
        ¬ GoodNext (quiet error (f a)).value ∧
          (quiet error (f a)).completed ⊆
            (undisturbed
              (f (undisturbed p).value)).completed) :
    Settles D GoodNext (p >>= f) := by
  have hWhole :
      undisturbed (p >>= f) =
        { value :=
            (undisturbed (f (undisturbed p).value)).value
          calls :=
            (undisturbed p).calls ++
              (undisturbed (f (undisturbed p).value)).calls
          completed :=
            (undisturbed p).completed ++
              (undisturbed
                (f (undisturbed p).value)).completed } :=
    quiet_bind _ p f
  constructor
  · rw [hWhole]
    exact hNext.good
  · intro error hOk
    rw [hWhole] at hOk ⊢
    rcases hFirst.succeeds error
        (fun c hMem => hOk c (List.mem_append_left _ hMem))
      with ⟨hValue, hCompleted⟩
    rcases hNext.succeeds error
        (fun c hMem => hOk c (List.mem_append_right _ hMem))
      with ⟨hValueNext, hCompletedNext⟩
    rw [quiet_bind, hValue, hCompleted]
    exact ⟨hValueNext,
      congrArg ((undisturbed p).completed ++ ·)
        hCompletedNext⟩
  · rintro error ⟨c, hMem, hD, hError⟩
    rw [hWhole] at hMem
    rw [quiet_bind]
    by_cases hFailed :
        ∃ d ∈ (undisturbed p).calls, D d ∧ error d ≠ 0
    · exact (hBad _ (hFirst.fails error hFailed) error).1
    · have hOk :
          ∀ d ∈ (undisturbed p).calls, D d →
            error d = 0 := by
        intro d hMemD hDD
        by_contra hNe
        exact hFailed ⟨d, hMemD, hDD, hNe⟩
      rw [(hFirst.succeeds error hOk).1]
      rcases List.mem_append.mp hMem with hHere | hLater
      · exact absurd (hOk c hHere hD) hError
      · exact hNext.fails error ⟨c, hLater, hD, hError⟩
  · intro error
    rw [hWhole, quiet_bind]
    by_cases hFailed :
        ∃ d ∈ (undisturbed p).calls, D d ∧ error d ≠ 0
    · exact List.append_subset.mpr
        ⟨List.subset_append_of_subset_left _
            (hFirst.completed error),
          List.subset_append_of_subset_right _
            (hBad _ (hFirst.fails error hFailed) error).2⟩
    · have hOk :
          ∀ d ∈ (undisturbed p).calls, D d →
            error d = 0 := by
        intro d hMemD hDD
        by_contra hNe
        exact hFailed ⟨d, hMemD, hDD, hNe⟩
      rw [(hFirst.succeeds error hOk).1,
        (hFirst.succeeds error hOk).2]
      exact List.append_subset.mpr
        ⟨List.subset_append_left _ _,
          List.subset_append_of_subset_right _
            (hNext.completed error)⟩

theorem Settles.shouldStop
    {next : Bool → Prog C α}
    (hNext : Settles D Good (next false)) :
    Settles D Good (.shouldStop next) :=
  ⟨hNext.good, hNext.succeeds, hNext.fails,
    hNext.completed⟩

/- A call whose failure the program returns. -/
theorem settles_call
    {c : C}
    (hD : D c) :
    Settles D (· = 0) (.call c .ret) := by
  refine ⟨rfl, ?_, ?_, fun _ => List.Subset.refl _⟩
  · intro error hOk
    exact ⟨hOk c (List.mem_singleton_self c) hD, rfl⟩
  · rintro error ⟨d, hMem, _, hError⟩
    rw [List.mem_singleton.mp hMem] at hError
    exact hError

/- A sweep of which the program looks at the code only. -/
theorem settles_sweep
    {c : C}
    (hD : D c) :
    Settles D (· = 0) (.sweep c (fun err _ => .ret err)) := by
  refine ⟨rfl, ?_, ?_, ?_⟩
  · intro error hOk
    have hZero : error c = 0 :=
      hOk c (List.mem_singleton_self c) hD
    simp [quiet, undisturbed, hZero]
  · rintro error ⟨d, hMem, _, hError⟩
    rw [List.mem_singleton.mp hMem] at hError
    exact hError
  · intro error d hMem
    simp only [quiet] at hMem
    split at hMem
    · exact hMem
    · exact absurd hMem List.not_mem_nil

/- A call whose code makes no difference. -/
theorem settles_ignored
    {c : C}
    (hD : ¬ D c)
    (hNext : Settles D Good p) :
    Settles D Good (.call c (fun _ => p)) := by
  refine ⟨hNext.good, ?_, ?_, hNext.completed⟩
  · intro error hOk
    exact hNext.succeeds error
      (fun d hMem => hOk d (List.mem_cons_of_mem c hMem))
  · rintro error ⟨d, hMem, hDD, hError⟩
    rcases List.mem_cons.mp hMem with hEq | hRest
    · rw [hEq] at hDD
      exact absurd hDD hD
    · exact hNext.fails error ⟨d, hRest, hDD, hError⟩

------------------------------------------------------------
-- Ladders
------------------------------------------------------------

/- Go on with `q` unless `p` has failed. -/
def andThen
    (p q : Prog C Error) : Prog C Error := do
  let err ← p
  if isOk err then q else pure err

/- Run a body for every element until one fails. -/
def forEach
    (body : β → Prog C Error) :
    List β → Prog C Error
| [] => pure 0
| x :: xs => andThen (body x) (forEach body xs)

theorem isOk_iff
    {err : Error} :
    isOk err = true ↔ err = 0 :=
  beq_iff_eq

theorem Settles.andThen
    {p q : Prog C Error}
    (hFirst : Settles D (· = 0) p)
    (hNext : Settles D (· = 0) q) :
    Settles D (· = 0) (andThen p q) := by
  have hOk : isOk (undisturbed p).value = true :=
    isOk_iff.mpr hFirst.good
  refine hFirst.bind ?_ ?_
  · rw [if_pos hOk]
    exact hNext
  · intro err hErr error
    rw [if_neg (fun hTrue => hErr (isOk_iff.mp hTrue))]
    exact ⟨hErr, List.nil_subset _⟩

theorem Settles.forEach
    {body : β → Prog C Error}
    {xs : List β}
    (hBody : ∀ x ∈ xs, Settles D (· = 0) (body x)) :
    Settles D (· = 0) (forEach body xs) := by
  induction xs with
  | nil => exact settles_pure rfl
  | cons x xs ih =>
      exact (hBody x List.mem_cons_self).andThen
        (ih (fun y hMem =>
          hBody y (List.mem_cons_of_mem x hMem)))

------------------------------------------------------------
-- Sweeps of a Program
------------------------------------------------------------

/- All sweeps of the program are among those in `S`. -/
def Sweeps
    (S : C → Prop)
    (p : Prog C α) : Prop :=
  ∀ error, ∀ c ∈ (quiet error p).completed, S c

variable {S : C → Prop}

theorem Sweeps.completed_eq_nil
    (hNone : Sweeps (fun _ => False) p)
    (error : C → Error) :
    (quiet error p).completed = [] :=
  List.eq_nil_iff_forall_not_mem.mpr (hNone error)

theorem sweeps_pure
    {a : α} :
    Sweeps S (.ret a : Prog C α) :=
  fun _ _ hMem => absurd hMem List.not_mem_nil

theorem Sweeps.undefined
    (hNext : Sweeps S p) :
    Sweeps S (.undefined p) :=
  hNext

theorem Sweeps.shouldStop
    {next : Bool → Prog C α}
    (hNext : Sweeps S (next false)) :
    Sweeps S (.shouldStop next) :=
  hNext

theorem Sweeps.call
    {c : C}
    {next : Error → Prog C α}
    (hNext : ∀ err, Sweeps S (next err)) :
    Sweeps S (.call c next) :=
  fun error => hNext (error c) error

theorem Sweeps.sweep
    {c : C}
    {next : Error → Bool → Prog C α}
    (hC : S c)
    (hNext : ∀ err done, Sweeps S (next err done)) :
    Sweeps S (.sweep c next) := by
  intro error d hMem
  simp only [quiet] at hMem
  split at hMem
  · rcases List.mem_cons.mp hMem with hEq | hRest
    · rw [hEq]
      exact hC
    · exact hNext _ _ error d hRest
  · exact hNext _ _ error d hMem

theorem Sweeps.bind
    (hFirst : Sweeps S p)
    (hNext : ∀ a, Sweeps S (f a)) :
    Sweeps S (p >>= f) := by
  intro error c hMem
  rw [quiet_bind] at hMem
  rcases List.mem_append.mp hMem with hHere | hThere
  · exact hFirst error c hHere
  · exact hNext _ error c hThere

theorem Sweeps.andThen
    {p q : Prog C Error}
    (hFirst : Sweeps S p)
    (hNext : Sweeps S q) :
    Sweeps S (andThen p q) := by
  refine hFirst.bind (fun err => ?_)
  split
  · exact hNext
  · exact sweeps_pure

theorem Sweeps.forEach
    {body : β → Prog C Error}
    (xs : List β)
    (hBody : ∀ x, Sweeps S (body x)) :
    Sweeps S (forEach body xs) := by
  induction xs with
  | nil => exact sweeps_pure
  | cons x xs ih => exact (hBody x).andThen ih

------------------------------------------------------------
-- Delivery
------------------------------------------------------------

/-
  The trace has the sweeps of the undisturbed run, and its
  value is fine.
-/
def Delivers
    (Fine : α → Prop)
    (p : Prog C α)
    (t : Trace C α) : Prop :=
  (undisturbed p).completed ⊆ t.completed ∧ Fine t.value

/- A program delivers when no call in `D` fails, and only so. -/
def Decides
    (D : C → Prop)
    (Fine : α → Prop)
    (p : Prog C α) : Prop :=
  ∀ error,
    Delivers Fine p (quiet error p) ↔
      ∀ c ∈ (undisturbed p).calls, D c → error c = 0

theorem Settles.decides
    (hSettles : Settles D Good p) :
    Decides D Good p := by
  intro error
  constructor
  · rintro ⟨_, hFine⟩ c hMem hD
    by_contra hNe
    exact hSettles.fails error ⟨c, hMem, hD, hNe⟩ hFine
  · intro hOk
    rcases hSettles.succeeds error hOk with
      ⟨hValue, hCompleted⟩
    refine ⟨?_, ?_⟩
    · rw [hCompleted]
      exact List.Subset.refl _
    · rw [hValue]
      exact hSettles.good

theorem Decides.shouldStop
    {next : Bool → Prog C α}
    (hNext : Decides D Good (next false)) :
    Decides D Good (.shouldStop next) :=
  hNext

/- The later sweeps are none of the earlier ones. -/
theorem Decides.bind
    (hFirst : Settles D Good p)
    (hNext : Decides D GoodNext (f (undisturbed p).value))
    (hFresh :
      ∀ c ∈ (undisturbed (f (undisturbed p).value)).completed,
        c ∉ (undisturbed p).completed)
    (hBad :
      ∀ a, ¬ Good a → ∀ error,
        (undisturbed (f (undisturbed p).value)).completed ⊆
            (quiet error (f a)).completed →
          ¬ GoodNext (quiet error (f a)).value) :
    Decides D GoodNext (p >>= f) := by
  intro error
  unfold Delivers undisturbed
  rw [quiet_bind, quiet_bind]
  change
    ((undisturbed p).completed ++
          (undisturbed (f (undisturbed p).value)).completed ⊆
        (quiet error p).completed ++
          (quiet error (f (quiet error p).value)).completed ∧
      GoodNext
        (quiet error (f (quiet error p).value)).value) ↔
      ∀ c ∈ (undisturbed p).calls ++
          (undisturbed (f (undisturbed p).value)).calls,
        D c → error c = 0
  -- The later sweeps have to be swept later.
  have hLater :
      (undisturbed (f (undisturbed p).value)).completed ⊆
          (quiet error p).completed ++
            (quiet error
              (f (quiet error p).value)).completed →
        (undisturbed (f (undisturbed p).value)).completed ⊆
          (quiet error
            (f (quiet error p).value)).completed := by
    intro hSubset c hMem
    rcases List.mem_append.mp (hSubset hMem) with
      hEarly | hLate
    · exact absurd (hFirst.completed error hEarly)
        (hFresh c hMem)
    · exact hLate
  constructor
  · rintro ⟨hCompleted, hFine⟩
    have hSwept :=
      hLater (List.append_subset.mp hCompleted).2
    have hOk :
        ∀ c ∈ (undisturbed p).calls, D c → error c = 0 := by
      intro c hMem hD
      by_contra hNe
      exact hBad _ (hFirst.fails error ⟨c, hMem, hD, hNe⟩)
        error hSwept hFine
    rw [(hFirst.succeeds error hOk).1] at hSwept hFine
    have hRest := (hNext error).mp ⟨hSwept, hFine⟩
    intro c hMem hD
    rcases List.mem_append.mp hMem with hHere | hThere
    · exact hOk c hHere hD
    · exact hRest c hThere hD
  · intro hOk
    rcases hFirst.succeeds error
        (fun c hMem => hOk c (List.mem_append_left _ hMem))
      with ⟨hValue, hCompleted⟩
    rcases (hNext error).mpr
        (fun c hMem => hOk c (List.mem_append_right _ hMem))
      with ⟨hSwept, hFine⟩
    rw [hValue, hCompleted]
    exact ⟨List.append_subset.mpr
      ⟨List.subset_append_left _ _,
        List.subset_append_of_subset_right _ hSwept⟩, hFine⟩

/- A program without sweeps whose calls make no difference. -/
theorem Decides.ofIgnored
    (hNone : ∀ c ∈ (undisturbed p).calls, ¬ D c)
    (hSweeps : Sweeps (fun _ => False) p)
    (hGood : ∀ error, Good (quiet error p).value) :
    Decides D Good p := by
  intro error
  refine iff_of_true ⟨?_, hGood error⟩ ?_
  · unfold undisturbed
    rw [hSweeps.completed_eq_nil]
    exact List.nil_subset _
  · exact fun c hMem hD => absurd hD (hNone c hMem)

/- Calls outside `D` before the program make no difference. -/
theorem Decides.afterIgnored
    {q : Prog C β}
    (hNone : ∀ c ∈ (undisturbed p).calls, ¬ D c)
    (hSweeps : Sweeps (fun _ => False) p)
    (hNext : Decides D GoodNext q) :
    Decides D GoodNext (p >>= fun _ => q) := by
  intro error
  have hIff := hNext error
  unfold Delivers undisturbed at hIff ⊢
  rw [quiet_bind, quiet_bind, hSweeps.completed_eq_nil,
    hSweeps.completed_eq_nil]
  change
    ((quiet (fun _ => 0) q).completed ⊆
          (quiet error q).completed ∧
        GoodNext (quiet error q).value) ↔
      ∀ c ∈ (undisturbed p).calls ++
          (quiet (fun _ => 0) q).calls,
        D c → error c = 0
  rw [hIff]
  constructor
  · intro hOk c hMem hD
    rcases List.mem_append.mp hMem with hHere | hThere
    · exact absurd hD (hNone c hHere)
    · exact hOk c hThere hD
  · intro hOk c hMem
    exact hOk c (List.mem_append_right _ hMem)

/- What follows a ladder has sweeps that show it was climbed. -/
theorem Decides.afterLadder
    {p : Prog C Error}
    {q : Prog C β}
    {b : Error → β}
    (hFirst : Settles D (· = 0) p)
    (hNext : Decides D GoodNext q)
    (hSome : (undisturbed q).completed ≠ [])
    (hFresh :
      ∀ c ∈ (undisturbed q).completed,
        c ∉ (undisturbed p).completed) :
    Decides D GoodNext
      (p >>= fun err =>
        if isOk err then q else .ret (b err)) := by
  have hOk : isOk (undisturbed p).value = true :=
    isOk_iff.mpr hFirst.good
  apply Decides.bind hFirst
  · rw [if_pos hOk]
    exact hNext
  · rw [if_pos hOk]
    exact hFresh
  · intro err hErr error hSubset
    rw [if_pos hOk,
      if_neg (fun hTrue => hErr (isOk_iff.mp hTrue))]
      at hSubset
    exact absurd (List.subset_nil.mp hSubset) hSome

/- A sweep that nothing later repeats. -/
theorem Decides.sweep
    {c : C}
    {next : Error → Bool → Prog C α}
    (hD : D c)
    (hNext : Decides D Good (next 0 true))
    (hFresh :
      ∀ error err done,
        c ∉ (quiet error (next err done)).completed) :
    Decides D Good (.sweep c next) := by
  intro error
  have hTrue : isOk 0 = true := rfl
  have hIff := hNext error
  have hNotLater := hFresh (fun _ => 0) 0 true
  unfold Delivers undisturbed at hIff ⊢
  simp only [quiet, hTrue, if_true]
  by_cases hZero : error c = 0
  · rw [hZero]
    simp only [hTrue, if_true, List.mem_cons,
      List.cons_subset, true_or, true_and]
    constructor
    · rintro ⟨hSwept, hFine⟩ d hMem hDD
      rcases hMem with hEq | hMem
      · rw [hEq]
        exact hZero
      · refine hIff.mp ⟨?_, hFine⟩ d hMem hDD
        intro b hB
        rcases List.mem_cons.mp (hSwept hB) with hEq | hRest
        · rw [hEq] at hB
          exact absurd hB hNotLater
        · exact hRest
    · intro hOk
      rcases hIff.mpr
          (fun d hMem => hOk d (Or.inr hMem)) with
        ⟨hSwept, hFine⟩
      exact ⟨List.subset_cons_of_subset _ hSwept, hFine⟩
  · have hFalse : ¬ isOk (error c) = true :=
      fun hOk => hZero (isOk_iff.mp hOk)
    refine iff_of_false ?_ ?_
    · rintro ⟨hSwept, _⟩
      rw [if_neg hFalse] at hSwept
      exact hFresh error _ _ (hSwept List.mem_cons_self)
    · intro hOk
      exact hZero (hOk c List.mem_cons_self hD)

end Calls

end MemoryAgent
