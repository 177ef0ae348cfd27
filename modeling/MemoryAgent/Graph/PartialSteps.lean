import Mathlib.Logic.Basic

/-
  Runs of commands, each of which takes one step or is not
  possible and ends the run.

  Key definitions include:
    * `PartialSteps.Throughout`
    * `PartialSteps.EveryStep`
    * `PartialSteps.ErasedFirst`
    * `PartialSteps.EachErased`

  Main results:
    * `PartialSteps.throughout_of_everyStep`
    * `PartialSteps.throughout_iff_everyStep`
    * `PartialSteps.eachErased_iff`
-/

------------------------------------------------------------
-- Runs
------------------------------------------------------------

namespace PartialSteps

variable {S C : Type}
variable (step : S → C → Option S)

/- All states of the run satisfy `P`. -/
def Throughout (P : S → Prop) : S → List C → Prop
| s, [] => P s
| s, c :: rest =>
    P s ∧ ∀ s', step s c = some s' → Throughout P s' rest

/- All steps of the run satisfy `Q`. -/
def EveryStep (Q : S → C → Prop) : S → List C → Prop
| _, [] => True
| s, c :: rest =>
    Q s c ∧ ∀ s', step s c = some s' → EveryStep Q s' rest

variable {step}
variable {P I : S → Prop}
variable {Q : S → C → Prop}

theorem everyStep_cons_of_none
    {s : S}
    {c : C}
    (rest : List C)
    (hStep : step s c = none) :
    EveryStep step Q s (c :: rest) ↔ Q s c := by
  refine ⟨And.left, fun hQ => ⟨hQ, ?_⟩⟩
  intro s' hSome
  rw [hStep] at hSome
  cases hSome

theorem everyStep_cons_of_some
    {s s' : S}
    {c : C}
    (rest : List C)
    (hStep : step s c = some s') :
    EveryStep step Q s (c :: rest) ↔
      Q s c ∧ EveryStep step Q s' rest := by
  constructor
  · rintro ⟨hQ, hRest⟩
    exact ⟨hQ, hRest s' hStep⟩
  · rintro ⟨hQ, hRest⟩
    refine ⟨hQ, ?_⟩
    intro s'' hSome
    rw [hStep] at hSome
    cases hSome
    exact hRest

instance decidableEveryStep
    [∀ s c, Decidable (Q s c)] :
    (cs : List C) → (s : S) →
      Decidable (EveryStep step Q s cs)
| [], _ => isTrue trivial
| c :: rest, s =>
    match hStep : step s c with
    | none =>
        decidable_of_iff (Q s c)
          (everyStep_cons_of_none rest hStep).symm
    | some s' =>
        have := decidableEveryStep rest s'
        decidable_of_iff (Q s c ∧ EveryStep step Q s' rest)
          (everyStep_cons_of_some rest hStep).symm

theorem Throughout.head
    {s : S}
    {cs : List C}
    (h : Throughout step P s cs) :
    P s := by
  cases cs with
  | nil => exact h
  | cons c rest => exact h.1

theorem Throughout.last
    {s s' : S}
    {cs : List C}
    (h : Throughout step P s cs)
    (hRun : cs.foldlM step s = some s') :
    P s' := by
  induction cs generalizing s with
  | nil =>
      cases hRun
      exact h
  | cons c rest ih =>
      simp only [List.foldlM_cons, Option.bind_eq_bind,
        Option.bind_eq_some_iff] at hRun
      rcases hRun with ⟨s₁, hStep, hRest⟩
      exact ih (h.2 s₁ hStep) hRest

theorem Throughout.mono
    (hIP : ∀ s, I s → P s)
    {s : S}
    {cs : List C}
    (h : Throughout step I s cs) :
    Throughout step P s cs := by
  induction cs generalizing s with
  | nil => exact hIP s h
  | cons c rest ih =>
      refine ⟨hIP s h.1, ?_⟩
      intro s' hstep
      exact ih (h.2 s' hstep)

/- A run in two parts. -/
theorem EveryStep.append
    {s s' : S}
    {cs ds : List C}
    (h : EveryStep step Q s (cs ++ ds))
    (hRun : cs.foldlM step s = some s') :
    EveryStep step Q s cs ∧ EveryStep step Q s' ds := by
  induction cs generalizing s with
  | nil =>
      cases hRun
      exact ⟨trivial, h⟩
  | cons c rest ih =>
      simp only [List.foldlM_cons, Option.bind_eq_bind,
        Option.bind_eq_some_iff] at hRun
      rcases hRun with ⟨s₁, hStep, hRest⟩
      rcases ih (h.2 s₁ hStep) hRest with ⟨_, hLater⟩
      refine ⟨⟨h.1, ?_⟩, hLater⟩
      intro s₂ hStep'
      rw [hStep] at hStep'
      cases hStep'
      exact (ih (h.2 s₁ hStep) hRest).1

/- An invariant that is kept by the steps in `Q`. -/
theorem throughout_of_everyStep
    (keeps :
      ∀ s c s', I s → Q s c → step s c = some s' → I s')
    {s : S}
    (hs : I s)
    {cs : List C}
    (h : EveryStep step Q s cs) :
    Throughout step I s cs := by
  induction cs generalizing s with
  | nil => exact hs
  | cons c rest ih =>
      refine ⟨hs, ?_⟩
      intro s' hstep
      exact ih (keeps s c s' hs h.1 hstep) (h.2 s' hstep)

/- The steps that lead out of `P` are those not in `Q`. -/
theorem everyStep_of_throughout
    (keeps :
      ∀ s c s', I s → Q s c → step s c = some s' → I s')
    (breaks :
      ∀ s c, I s → ¬ Q s c →
        ∃ s', step s c = some s' ∧ ¬ P s')
    {s : S}
    (hs : I s)
    {cs : List C}
    (h : Throughout step P s cs) :
    EveryStep step Q s cs := by
  induction cs generalizing s with
  | nil => trivial
  | cons c rest ih =>
      have hQ : Q s c := by
        apply Classical.byContradiction
        intro hQ
        obtain ⟨s', hstep, hP⟩ := breaks s c hs hQ
        exact hP (h.2 s' hstep).head
      refine ⟨hQ, ?_⟩
      intro s' hstep
      exact ih (keeps s c s' hs hQ hstep) (h.2 s' hstep)

theorem throughout_iff_everyStep
    (holds : ∀ s, I s → P s)
    (keeps :
      ∀ s c s', I s → Q s c → step s c = some s' → I s')
    (breaks :
      ∀ s c, I s → ¬ Q s c →
        ∃ s', step s c = some s' ∧ ¬ P s')
    {s : S}
    (hs : I s)
    (cs : List C) :
    Throughout step P s cs ↔ EveryStep step Q s cs := by
  constructor
  · intro h
    exact everyStep_of_throughout keeps breaks hs h
  · intro h
    exact (throughout_of_everyStep keeps hs h).mono holds

------------------------------------------------------------
-- Sets that Steps Change
------------------------------------------------------------

section Sets

variable {A : Type}
variable (step)
variable (may : C → Prop)
variable (inserted : S → C → S → List A)
variable (erases : S → C → S → A → Prop)

/-
  A step of the run erases `a` before the first command that
  is not in `may`, unless the run ends before it.
-/
def ErasedFirst (a : A) : S → List C → Prop
| _, [] => True
| s, c :: rest =>
    may c ∧
      ∀ s', step s c = some s' →
        erases s c s' a ∨ ErasedFirst a s' rest

/- So does a later step for all that a step inserts. -/
def EachErased : S → List C → Prop
| _, [] => True
| s, c :: rest =>
    ∀ s', step s c = some s' →
      (∀ a ∈ inserted s c s',
        ErasedFirst step may erases a s' rest) ∧
      EachErased s' rest

variable {step may inserted erases}

instance decidableNext
    {P : S → Prop}
    [∀ s, Decidable (P s)]
    (s : S)
    (c : C) :
    Decidable (∀ s', step s c = some s' → P s') :=
  match hStep : step s c with
  | none => isTrue (fun _ hSome => by cases hSome)
  | some s' =>
      decidable_of_iff (P s')
        ⟨fun hP _ hSome => Option.some.inj hSome ▸ hP,
          fun hAll => hAll s' rfl⟩

instance decidableErasedFirst
    [DecidablePred may]
    [∀ s c s' a, Decidable (erases s c s' a)]
    (a : A) :
    (cs : List C) → (s : S) →
      Decidable (ErasedFirst step may erases a s cs)
| [], _ => isTrue trivial
| c :: rest, s =>
    have := decidableErasedFirst a rest
    inferInstanceAs
      (Decidable
        (may c ∧
          ∀ s', step s c = some s' →
            erases s c s' a ∨
              ErasedFirst step may erases a s' rest))

instance decidableEachErased
    [DecidablePred may]
    [∀ s c s' a, Decidable (erases s c s' a)] :
    (cs : List C) → (s : S) →
      Decidable
        (EachErased step may inserted erases s cs)
| [], _ => isTrue trivial
| c :: rest, s =>
    have := decidableEachErased rest
    inferInstanceAs
      (Decidable
        (∀ s', step s c = some s' →
          (∀ a ∈ inserted s c s',
            ErasedFirst step may erases a s' rest) ∧
          EachErased step may inserted erases s' rest))

/-
  All that the steps insert is erased in time iff the set is
  empty whenever a command comes that is not in `may`.
-/
theorem eachErased_iff
    {mem : S → A → Prop}
    (keeps :
      ∀ s c s', I s → step s c = some s' → I s')
    (mem_iff :
      ∀ s c s', I s → step s c = some s' → ∀ a,
        (mem s' a ↔
          a ∈ inserted s c s' ∨
            (mem s a ∧ ¬ erases s c s' a)))
    {s : S}
    (hs : I s)
    (cs : List C) :
    (EachErased step may inserted erases s cs ∧
      ∀ a, mem s a → ErasedFirst step may erases a s cs) ↔
      EveryStep step (fun s c => may c ∨ ∀ a, ¬ mem s a) s
        cs := by
  induction cs generalizing s with
  | nil => exact iff_of_true ⟨trivial, fun _ _ => trivial⟩ trivial
  | cons c rest ih =>
      have hNext :
          ∀ s', step s c = some s' →
            (EveryStep step (fun s c => may c ∨ ∀ a, ¬ mem s a)
                s' rest ↔
              EachErased step may inserted erases s' rest ∧
                ∀ a, mem s' a →
                  ErasedFirst step may erases a s' rest) :=
        fun s' hStep => (ih (keeps s c s' hs hStep)).symm
      constructor
      · rintro ⟨hEach, hMem⟩
        constructor
        · by_cases hMay : may c
          · exact Or.inl hMay
          · exact Or.inr (fun a hA => hMay (hMem a hA).1)
        · intro s' hStep
          rcases hEach s' hStep with ⟨hInserted, hRest⟩
          refine (hNext s' hStep).mpr ⟨hRest, ?_⟩
          intro a hA
          rcases (mem_iff s c s' hs hStep a).mp hA with
            hNew | ⟨hOld, hKept⟩
          · exact hInserted a hNew
          · exact ((hMem a hOld).2 s' hStep).resolve_left
              hKept
      · rintro ⟨hEmpty, hRest⟩
        constructor
        · intro s' hStep
          rcases (hNext s' hStep).mp (hRest s' hStep) with
            ⟨hEach, hMem⟩
          refine ⟨fun a hNew => hMem a ?_, hEach⟩
          exact (mem_iff s c s' hs hStep a).mpr (Or.inl hNew)
        · intro a hA
          refine ⟨hEmpty.resolve_right (fun h => h a hA), ?_⟩
          intro s' hStep
          by_cases hErases : erases s c s' a
          · exact Or.inl hErases
          · apply Or.inr
            apply ((hNext s' hStep).mp (hRest s' hStep)).2
            exact (mem_iff s c s' hs hStep a).mpr
              (Or.inr ⟨hA, hErases⟩)

end Sets

end PartialSteps
