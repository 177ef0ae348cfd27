import Mathlib.Data.List.Basic
import Mathlib.Data.List.Nodup
import Mathlib.Data.List.TakeWhile
import Mathlib.Logic.Function.Basic
import MemoryAgent.Actions.Program

/-
  `ThreadSuspender`: its constructor suspends the threads
  that are not the current one, and its destructor resumes
  them.

  Key definitions include:
    * `ThreadSuspender.create`
    * `ThreadSuspender.destroy`
    * `ThreadSuspender.Balanced`
    * `ThreadSuspender.ToldApart`

  Main results:
    * `ThreadSuspender.create_spec`
    * `ThreadSuspender.destroy_spec`
    * `ThreadSuspender.balanced_iff`
-/

------------------------------------------------------------
-- Threads
------------------------------------------------------------

namespace MemoryAgent

open Calls Actions

namespace ThreadSuspender

def JVMTI_ERROR_THREAD_NOT_SUSPENDED : jvmtiError :=
  13

def JVMTI_ERROR_THREAD_SUSPENDED : jvmtiError :=
  14

/-
  The live threads and what the queries about them answer.
  The two errors at the end are those of `SuspendThread` for
  a thread that is running, and of `ResumeThread` for one
  that is suspended.
-/
structure Threads (T : Type) where
  all : List T
  nodup : all.Nodup
  current : T
  name : T → String
  getAllThreads : jvmtiError
  getCurrentThread : jvmtiError
  getCurrentThreadInfo : jvmtiError
  getThreadInfo : T → jvmtiError
  suspendThread : T → jvmtiError
  resumeThread : T → jvmtiError

/-
  `suspendedThreads` is the field of the suspender.  The
  threads in `resumed` were resumed, in this order.
-/
structure State (T : Type) where
  suspended : T → Bool
  suspendedThreads : List T
  resumed : List T
  log : List (jvmtiError × String)

variable {T : Type}

def initial (suspended : T → Bool) : State T :=
  ⟨suspended, [], [], []⟩

def handleError
    (err : jvmtiError)
    (message : String)
    (s : State T) : State T :=
  if !isOk err && err != MEMORY_AGENT_INTERRUPTED_ERROR then
    { s with log := s.log ++ [(err, message)] }
  else
    s

@[simp] theorem handleError_suspended
    (err : jvmtiError)
    (message : String)
    (s : State T) :
    (handleError err message s).suspended = s.suspended := by
  unfold handleError
  split
  · rfl
  · rfl

@[simp] theorem handleError_suspendedThreads
    (err : jvmtiError)
    (message : String)
    (s : State T) :
    (handleError err message s).suspendedThreads =
      s.suspendedThreads := by
  unfold handleError
  split
  · rfl
  · rfl

@[simp] theorem handleError_resumed
    (err : jvmtiError)
    (message : String)
    (s : State T) :
    (handleError err message s).resumed = s.resumed := by
  unfold handleError
  split
  · rfl
  · rfl

variable [DecidableEq T]

def SuspendThread
    (env : Threads T)
    (thread : T)
    (s : State T) : jvmtiError × State T :=
  if s.suspended thread then
    (JVMTI_ERROR_THREAD_SUSPENDED, s)
  else if isOk (env.suspendThread thread) then
    (JVMTI_ERROR_NONE,
      { s with
        suspended := Function.update s.suspended thread true })
  else
    (env.suspendThread thread, s)

def ResumeThread
    (env : Threads T)
    (thread : T)
    (s : State T) : jvmtiError × State T :=
  if !s.suspended thread then
    (JVMTI_ERROR_THREAD_NOT_SUSPENDED, s)
  else if isOk (env.resumeThread thread) then
    (JVMTI_ERROR_NONE,
      { s with
        suspended := Function.update s.suspended thread false
        resumed := s.resumed ++ [thread] })
  else
    (env.resumeThread thread, s)

------------------------------------------------------------
-- The Suspender
------------------------------------------------------------

/-
  The loop of the constructor.  The current thread's name is
  none where it was never written: `strcmp` then follows an
  uninitialized pointer, and there is no state.
-/
def suspendOthers
    (env : Threads T)
    (currentThreadName : Option String) :
    List T → State T → Option (State T)
| [], s => some s
| thread :: threads, s =>
    let err := env.getThreadInfo thread
    if !isOk err then
      some (handleError err "Failed to get thread's info" s)
    else
      match currentThreadName with
      | none => none
      | some name =>
          if env.name thread ≠ name then
            let (err, s) := SuspendThread env thread s
            if err = JVMTI_ERROR_NONE then
              suspendOthers env currentThreadName threads
                { s with
                  suspendedThreads :=
                    s.suspendedThreads ++ [thread] }
            else
              suspendOthers env currentThreadName threads s
          else
            suspendOthers env currentThreadName threads s

/-
  The constructor.  The error of the query for the current
  thread's info is not assigned to `err`, so that the loop
  begins even where the query fails.
-/
def create
    (env : Threads T)
    (s : State T) : Option (State T) :=
  let err := env.getAllThreads
  if !isOk err then
    some (handleError err "Failed to get all threads" s)
  else
    let err := env.getCurrentThread
    if !isOk err then
      some (handleError err "Failed to get current thread" s)
    else
      let currentThreadName :=
        if isOk env.getCurrentThreadInfo then
          some (env.name env.current)
        else
          none
      if !isOk err then
        some (handleError err
          "Failed to get current thread's info" s)
      else
        suspendOthers env currentThreadName env.all s

/- The body of the loop of the destructor. -/
def resume
    (env : Threads T)
    (s : State T)
    (thread : T) : State T :=
  let (err, s) := ResumeThread env thread s
  if !isOk err then
    handleError err "Failed to resume thread" s
  else
    s

def destroy
    (env : Threads T)
    (s : State T) : State T :=
  s.suspendedThreads.foldl (resume env) s

------------------------------------------------------------
-- Complete and Balanced Suspension
------------------------------------------------------------

/- `SuspendThread` can succeed for the thread. -/
def CanSuspend
    (env : Threads T)
    (suspended : T → Bool)
    (thread : T) : Prop :=
  suspended thread = false ∧
    isOk (env.suspendThread thread) = true

/- No query failed. -/
structure Answered (env : Threads T) : Prop where
  getAllThreads : isOk env.getAllThreads = true
  getCurrentThread : isOk env.getCurrentThread = true
  getCurrentThreadInfo : isOk env.getCurrentThreadInfo = true
  getThreadInfo :
    ∀ t ∈ env.all, isOk (env.getThreadInfo t) = true

/-
  What the constructor leaves is right: the current thread
  is not suspended, all others are that can be, and the
  destructor resumes those threads that the constructor has
  suspended, once each.
-/
structure BalancedAfter
    (env : Threads T)
    (suspended : T → Bool)
    (s : State T) : Prop where
  current : env.current ∉ s.suspendedThreads
  complete :
    Answered env →
      ∀ t ∈ env.all, t ≠ env.current →
        CanSuspend env suspended t →
          s.suspended t = true
  resumed :
    (∀ t, isOk (env.resumeThread t) = true) →
      (destroy env s).resumed.Nodup ∧
        (∀ t,
          t ∈ (destroy env s).resumed ↔
            suspended t = false ∧ s.suspended t = true) ∧
        (destroy env s).suspended = suspended

/- The constructor is defined, and suspends rightly. -/
def Balanced
    (env : Threads T)
    (suspended : T → Bool) : Prop :=
  ∃ s, create env (initial suspended) = some s ∧
    BalancedAfter env suspended s

/- The threads up to the first whose info is not available. -/
def visited (env : Threads T) : List T :=
  env.all.takeWhile (fun t => isOk (env.getThreadInfo t))

/-
  The info of the current thread is available when the loop
  gets to a first thread.
-/
def InfoKnown (env : Threads T) : Prop :=
  isOk env.getAllThreads = true →
    isOk env.getCurrentThread = true →
      visited env ≠ [] →
        isOk env.getCurrentThreadInfo = true

/-
  The current thread is told apart from the others: its name
  is there to compare with, and when no query failed, no
  other thread that can be suspended has it.
-/
structure ToldApart
    (env : Threads T)
    (suspended : T → Bool) : Prop where
  info : InfoKnown env
  name :
    Answered env →
      ∀ t ∈ env.all, t ≠ env.current →
        CanSuspend env suspended t →
          env.name t ≠ env.name env.current

instance
    (env : Threads T)
    (suspended : T → Bool)
    (t : T) :
    Decidable (CanSuspend env suspended t) :=
  inferInstanceAs (Decidable (_ ∧ _))

------------------------------------------------------------
-- The Constructor
------------------------------------------------------------

/- The threads of a list that the loop suspends. -/
def chosen
    (env : Threads T)
    (suspended : T → Bool)
    (currentThreadName : String)
    (threads : List T) : List T :=
  (threads.takeWhile
    (fun t => isOk (env.getThreadInfo t))).filter
      (fun t =>
        decide (env.name t ≠ currentThreadName ∧
          CanSuspend env suspended t))

section Spec

variable {env : Threads T}
variable {suspended : T → Bool}
variable {currentThreadName : String}
variable {threads : List T}
variable {s : State T}
variable {t thread : T}

theorem SuspendThread_of_can
    (hCan : CanSuspend env s.suspended thread) :
    SuspendThread env thread s =
      (JVMTI_ERROR_NONE,
        { s with
          suspended :=
            Function.update s.suspended thread true }) := by
  unfold SuspendThread
  rw [hCan.1, if_neg Bool.false_ne_true, if_pos hCan.2]

theorem SuspendThread_of_not
    (hNot : ¬ CanSuspend env s.suspended thread) :
    ∃ err, err ≠ JVMTI_ERROR_NONE ∧
      SuspendThread env thread s = (err, s) := by
  unfold SuspendThread
  by_cases hSuspended : s.suspended thread = true
  · rw [if_pos hSuspended]
    exact ⟨_, by decide, rfl⟩
  · have hErr :
        isOk (env.suspendThread thread) ≠ true :=
      fun hOk => hNot ⟨Bool.eq_false_iff.mpr hSuspended, hOk⟩
    rw [if_neg hSuspended, if_neg hErr]
    refine ⟨_, ?_, rfl⟩
    intro hNone
    rw [hNone] at hErr
    exact hErr rfl

omit [DecidableEq T] in
theorem mem_chosen :
    t ∈ chosen env suspended currentThreadName threads ↔
      t ∈ threads.takeWhile
          (fun t => isOk (env.getThreadInfo t)) ∧
        env.name t ≠ currentThreadName ∧
        CanSuspend env suspended t := by
  unfold chosen
  rw [List.mem_filter, decide_eq_true_iff]

/- A thread of which the rest of the list knows nothing. -/
theorem chosen_update
    (hNotMem : thread ∉ threads) :
    chosen env (Function.update suspended thread true)
        currentThreadName threads =
      chosen env suspended currentThreadName threads := by
  unfold chosen
  apply List.filter_congr
  intro t hMem
  have hNe : t ≠ thread := by
    intro hEq
    rw [hEq] at hMem
    exact hNotMem ((List.takeWhile_sublist _).mem hMem)
  apply decide_eq_decide.mpr
  unfold CanSuspend
  rw [Function.update_of_ne hNe]

omit [DecidableEq T] in
theorem chosen_cons
    (hOk : isOk (env.getThreadInfo thread) = true) :
    chosen env suspended currentThreadName
        (thread :: threads) =
      if env.name thread ≠ currentThreadName ∧
          CanSuspend env suspended thread then
        thread ::
          chosen env suspended currentThreadName threads
      else
        chosen env suspended currentThreadName threads := by
  unfold chosen
  simp only [List.takeWhile_cons, hOk, if_true,
    List.filter_cons, decide_eq_true_eq]

/- A thread is passed over, as the current one or in vain. -/
theorem suspendOthers_skipped
    (hOk : isOk (env.getThreadInfo thread) = true)
    (hNot :
      ¬ (env.name thread ≠ currentThreadName ∧
        CanSuspend env s.suspended thread)) :
    suspendOthers env (some currentThreadName)
        (thread :: threads) s =
      suspendOthers env (some currentThreadName) threads
        s := by
  rw [suspendOthers]
  dsimp only
  rw [hOk, Bool.not_true, if_neg Bool.false_ne_true]
  by_cases hName : env.name thread ≠ currentThreadName
  · have hCan : ¬ CanSuspend env s.suspended thread :=
      fun hCan => hNot ⟨hName, hCan⟩
    rcases SuspendThread_of_not hCan with ⟨err, hErr, hEq⟩
    rw [if_pos hName, hEq]
    exact if_neg hErr
  · exact if_neg hName

theorem suspendOthers_chosen
    (hOk : isOk (env.getThreadInfo thread) = true)
    (hChosen :
      env.name thread ≠ currentThreadName ∧
        CanSuspend env s.suspended thread) :
    suspendOthers env (some currentThreadName)
        (thread :: threads) s =
      suspendOthers env (some currentThreadName) threads
        { s with
          suspended := Function.update s.suspended thread true
          suspendedThreads :=
            s.suspendedThreads ++ [thread] } := by
  rw [suspendOthers]
  dsimp only
  rw [hOk, Bool.not_true, if_neg Bool.false_ne_true,
    if_pos hChosen.1, SuspendThread_of_can hChosen.2]
  exact if_pos rfl

/- What the loop does to the threads. -/
theorem suspendOthers_spec
    (env : Threads T)
    (currentThreadName : String)
    (s : State T)
    (hNodup : threads.Nodup) :
    ∃ s',
      suspendOthers env (some currentThreadName) threads s =
        some s' ∧
      s'.suspendedThreads =
        s.suspendedThreads ++
          chosen env s.suspended currentThreadName threads ∧
      (∀ t,
        s'.suspended t =
          (s.suspended t ||
            decide (t ∈ chosen env s.suspended
              currentThreadName threads))) ∧
      s'.resumed = s.resumed := by
  induction threads generalizing s with
  | nil =>
      refine ⟨s, rfl, ?_, ?_, rfl⟩
      · simp [chosen]
      · simp [chosen]
  | cons thread threads ih =>
      rcases List.nodup_cons.mp hNodup with
        ⟨hNotMem, hNodupRest⟩
      by_cases hOk : isOk (env.getThreadInfo thread) = true
      · by_cases hChosen :
            env.name thread ≠ currentThreadName ∧
              CanSuspend env s.suspended thread
        · rw [suspendOthers_chosen hOk hChosen,
            chosen_cons hOk, if_pos hChosen]
          rcases ih _ hNodupRest with
            ⟨s', hLoop, hThreads, hSuspended, hResumed⟩
          refine ⟨s', hLoop, ?_, ?_, hResumed⟩
          · rw [hThreads]
            dsimp only
            rw [chosen_update hNotMem, List.append_assoc]
            rfl
          · intro t
            rw [hSuspended]
            dsimp only
            rw [chosen_update hNotMem]
            by_cases hEq : t = thread
            · simp [hEq]
            · simp [hEq]
        · rw [suspendOthers_skipped hOk hChosen,
            chosen_cons hOk, if_neg hChosen]
          exact ih s hNodupRest
      · refine
          ⟨handleError (env.getThreadInfo thread)
            "Failed to get thread's info" s, ?_, ?_, ?_, ?_⟩
        · simp [suspendOthers, hOk]
        · simp [chosen, hOk]
        · simp [chosen, hOk]
        · simp

/- Without the name the loop is defined on no thread. -/
theorem suspendOthers_eq_none
    (s : State T)
    (hVisited :
      threads.takeWhile
        (fun t => isOk (env.getThreadInfo t)) ≠ []) :
    suspendOthers env none threads s = none := by
  cases threads with
  | nil => exact absurd rfl hVisited
  | cons thread threads =>
      by_cases hOk : isOk (env.getThreadInfo thread) = true
      · simp [suspendOthers, hOk]
      · simp [hOk] at hVisited

theorem suspendOthers_of_nil
    (currentThreadName : Option String)
    (s : State T)
    (hVisited :
      threads.takeWhile
        (fun t => isOk (env.getThreadInfo t)) = []) :
    ∃ s',
      suspendOthers env currentThreadName threads s =
        some s' ∧
      s'.suspendedThreads = s.suspendedThreads ∧
      s'.suspended = s.suspended ∧
      s'.resumed = s.resumed := by
  cases threads with
  | nil => exact ⟨s, rfl, rfl, rfl, rfl⟩
  | cons thread threads =>
      by_cases hOk : isOk (env.getThreadInfo thread) = true
      · simp [hOk] at hVisited
      · refine
          ⟨handleError (env.getThreadInfo thread)
            "Failed to get thread's info" s, ?_, ?_, ?_, ?_⟩
        · simp [suspendOthers, hOk]
        · simp
        · simp
        · simp

/- The threads that the constructor suspends. -/
def toSuspend
    (env : Threads T)
    (suspended : T → Bool) : List T :=
  if isOk env.getAllThreads && isOk env.getCurrentThread then
    chosen env suspended (env.name env.current) env.all
  else
    []

omit [DecidableEq T] in
theorem mem_toSuspend :
    t ∈ toSuspend env suspended ↔
      (isOk env.getAllThreads = true ∧
        isOk env.getCurrentThread = true) ∧
      t ∈ visited env ∧
        env.name t ≠ env.name env.current ∧
        CanSuspend env suspended t := by
  unfold toSuspend
  rw [← Bool.and_eq_true]
  split
  · next hBoth =>
      rw [and_iff_right hBoth]
      exact mem_chosen
  · next hNot =>
      exact iff_of_false List.not_mem_nil
        (fun hBoth => hNot hBoth.1)

omit [DecidableEq T] in
theorem nodup_toSuspend :
    (toSuspend env suspended).Nodup := by
  unfold toSuspend
  split
  · exact (env.nodup.sublist
      (List.takeWhile_sublist _)).filter _
  · exact List.nodup_nil

/- The state that the constructor leaves. -/
structure Created
    (env : Threads T)
    (suspended : T → Bool)
    (s : State T) : Prop where
  threads : s.suspendedThreads = toSuspend env suspended
  suspended :
    ∀ t,
      s.suspended t =
        (suspended t || decide (t ∈ toSuspend env suspended))
  resumed : s.resumed = []

theorem create_spec
    (suspended : T → Bool)
    (hInfo : InfoKnown env) :
    ∃ s, create env (initial suspended) = some s ∧
      Created env suspended s := by
  by_cases hAll : isOk env.getAllThreads = true
  · by_cases hCurrent : isOk env.getCurrentThread = true
    · have hChosen :
          toSuspend env suspended =
            chosen env suspended (env.name env.current)
              env.all := by
        simp [toSuspend, hAll, hCurrent]
      by_cases hName : isOk env.getCurrentThreadInfo = true
      · rcases suspendOthers_spec env (env.name env.current)
            (initial suspended) env.nodup with
          ⟨s, hLoop, hThreads, hSuspended, hResumed⟩
        refine ⟨s, ?_, ?_, ?_, hResumed⟩
        · simp [create, hAll, hCurrent, hName, hLoop]
        · rw [hChosen]
          exact hThreads
        · rw [hChosen]
          exact hSuspended
      · have hEmpty : visited env = [] := by
          by_contra hSome
          exact hName (hInfo hAll hCurrent hSome)
        rcases suspendOthers_of_nil none (initial suspended)
            hEmpty with
          ⟨s, hLoop, hThreads, hSuspended, hResumed⟩
        have hNone : toSuspend env suspended = [] := by
          rw [hChosen]
          unfold chosen
          unfold visited at hEmpty
          rw [hEmpty, List.filter_nil]
        refine ⟨s, ?_, ?_, ?_, hResumed⟩
        · simp [create, hAll, hCurrent, hName, hLoop]
        · rw [hNone]
          exact hThreads
        · rw [hNone, hSuspended]
          simp [initial]
    · refine
        ⟨handleError env.getCurrentThread
          "Failed to get current thread" (initial suspended),
          ?_, ?_, ?_, ?_⟩
      · simp [create, hAll, hCurrent]
      · simp [toSuspend, hCurrent, initial]
      · simp [toSuspend, hCurrent, initial]
      · simp [initial]
  · refine
      ⟨handleError env.getAllThreads
        "Failed to get all threads" (initial suspended),
        ?_, ?_, ?_, ?_⟩
    · simp [create, hAll]
    · simp [toSuspend, hAll, initial]
    · simp [toSuspend, hAll, initial]
    · simp [initial]

theorem create_eq_none
    (suspended : T → Bool)
    (hNot : ¬ InfoKnown env) :
    create env (initial suspended) = none := by
  simp only [InfoKnown, Classical.not_imp] at hNot
  rcases hNot with ⟨hAll, hCurrent, hVisited, hName⟩
  have hLoop :
      suspendOthers env none env.all (initial suspended) =
        none :=
    suspendOthers_eq_none _ hVisited
  simp [create, hAll, hCurrent, hName, hLoop]

------------------------------------------------------------
-- The Destructor
------------------------------------------------------------

theorem resume_of_suspended
    (hResume : isOk (env.resumeThread thread) = true)
    (hSuspended : s.suspended thread = true) :
    resume env s thread =
      { s with
        suspended := Function.update s.suspended thread false
        resumed := s.resumed ++ [thread] } := by
  unfold resume ResumeThread
  rw [hSuspended, Bool.not_true, if_neg Bool.false_ne_true,
    if_pos hResume]
  rfl

/- The loop of the destructor, where every call succeeds. -/
theorem foldl_resume
    (hResume : ∀ t, isOk (env.resumeThread t) = true)
    (s : State T)
    (hNodup : threads.Nodup)
    (hSuspended : ∀ t ∈ threads, s.suspended t = true) :
    (∀ t,
      (threads.foldl (resume env) s).suspended t =
        (s.suspended t && decide (t ∉ threads))) ∧
      (threads.foldl (resume env) s).resumed =
        s.resumed ++ threads := by
  induction threads generalizing s with
  | nil => simp
  | cons thread threads ih =>
      rcases List.nodup_cons.mp hNodup with
        ⟨hNotMem, hNodupRest⟩
      have hFirst :=
        resume_of_suspended (hResume thread)
          (hSuspended thread List.mem_cons_self)
      have hRest :
          ∀ t ∈ threads,
            (resume env s thread).suspended t = true := by
        intro t hMem
        have hNe : t ≠ thread :=
          fun hEq => hNotMem (hEq ▸ hMem)
        rw [hFirst]
        exact (Function.update_of_ne hNe _ _).trans
          (hSuspended t (List.mem_cons_of_mem _ hMem))
      rcases ih (resume env s thread) hNodupRest hRest with
        ⟨hAfter, hResumed⟩
      rw [List.foldl_cons]
      constructor
      · intro t
        rw [hAfter, hFirst]
        dsimp only
        by_cases hEq : t = thread
        · simp [hEq]
        · simp [hEq]
      · rw [hResumed, hFirst, List.append_assoc]
        rfl

/-
  Whatever else fails in the constructor, the destructor
  resumes the threads that were suspended, and no others.
-/
theorem destroy_spec
    (hCreated : Created env suspended s)
    (hResume : ∀ t, isOk (env.resumeThread t) = true) :
    (destroy env s).resumed = toSuspend env suspended ∧
      (destroy env s).suspended = suspended := by
  have hAll :
      ∀ t ∈ toSuspend env suspended,
        s.suspended t = true := by
    intro t hMem
    rw [hCreated.suspended, decide_eq_true hMem,
      Bool.or_true]
  rcases foldl_resume hResume s nodup_toSuspend hAll with
    ⟨hAfter, hOrder⟩
  unfold destroy
  rw [hCreated.threads]
  constructor
  · rw [hOrder, hCreated.resumed]
    rfl
  · funext t
    rw [hAfter, hCreated.suspended]
    by_cases hMem : t ∈ toSuspend env suspended
    · have hRunning : suspended t = false :=
        (mem_toSuspend.mp hMem).2.2.2.1
      simp [hMem, hRunning]
    · simp [hMem]

omit [DecidableEq T] in
theorem Answered.visited_eq
    (hAnswered : Answered env) :
    visited env = env.all :=
  List.takeWhile_eq_self_iff.mpr hAnswered.getThreadInfo

theorem Created.balancedAfter
    (hCreated : Created env suspended s)
    (hApart : ToldApart env suspended) :
    BalancedAfter env suspended s := by
  refine ⟨?_, ?_, ?_⟩
  · rw [hCreated.threads, mem_toSuspend]
    rintro ⟨_, _, hName, _⟩
    exact hName rfl
  · intro hAnswered t hMem hNe hCan
    have hSuspend : t ∈ toSuspend env suspended := by
      rw [mem_toSuspend, hAnswered.visited_eq]
      exact
        ⟨⟨hAnswered.getAllThreads,
          hAnswered.getCurrentThread⟩, hMem,
          hApart.name hAnswered t hMem hNe hCan, hCan⟩
    rw [hCreated.suspended, decide_eq_true hSuspend,
      Bool.or_true]
  · intro hResume
    rcases destroy_spec hCreated hResume with
      ⟨hResumed, hAfter⟩
    refine ⟨?_, ?_, hAfter⟩
    · rw [hResumed]
      exact nodup_toSuspend
    · intro t
      rw [hResumed, hCreated.suspended]
      constructor
      · intro hMem
        exact ⟨(mem_toSuspend.mp hMem).2.2.2.1, by
          simp [hMem]⟩
      · rintro ⟨hRunning, hNow⟩
        rw [hRunning, Bool.false_or,
          decide_eq_true_iff] at hNow
        exact hNow

/-
  Suspension is defined, complete and balanced just in case
  that the current thread is told apart from the others.
-/
theorem balanced_iff
    {T : Type}
    [DecidableEq T]
    (env : Threads T)
    (suspended : T → Bool) :
    Balanced env suspended ↔ ToldApart env suspended := by
  constructor
  · rintro ⟨s, hCreate, hBalanced⟩
    have hInfo : InfoKnown env := by
      by_contra hNot
      rw [create_eq_none suspended hNot] at hCreate
      cases hCreate
    rcases create_spec suspended hInfo with
      ⟨s', hCreate', hCreated⟩
    have hSame : s' = s :=
      Option.some.inj (hCreate'.symm.trans hCreate)
    rw [hSame] at hCreated
    refine ⟨hInfo, ?_⟩
    intro hAnswered t hMem hNe hCan hName
    have hDone := hBalanced.complete hAnswered t hMem hNe hCan
    rw [hCreated.suspended, hCan.1, Bool.false_or,
      decide_eq_true_iff, mem_toSuspend] at hDone
    exact hDone.2.2.1 hName
  · intro hApart
    rcases create_spec suspended hApart.info with
      ⟨s, hCreate, hCreated⟩
    exact ⟨s, hCreate, hCreated.balancedAfter hApart⟩

end Spec

------------------------------------------------------------
-- Two Threads
------------------------------------------------------------

/- Two running threads; the first one is the current one. -/
def twoThreads
    (other : String)
    (getCurrentThreadInfo : jvmtiError) :
    Threads (Fin 2) where
  all := [0, 1]
  nodup := by decide
  current := 0
  name := fun t => if t = 0 then "main" else other
  getAllThreads := JVMTI_ERROR_NONE
  getCurrentThread := JVMTI_ERROR_NONE
  getCurrentThreadInfo := getCurrentThreadInfo
  getThreadInfo := fun _ => JVMTI_ERROR_NONE
  suspendThread := fun _ => JVMTI_ERROR_NONE
  resumeThread := fun _ => JVMTI_ERROR_NONE

def JVMTI_ERROR_OUT_OF_MEMORY : jvmtiError :=
  110

/-
  A thread with the name of the current one goes on, and
  where the name is unknown the constructor is undefined.
-/
theorem not_balanced :
    ¬ Balanced (twoThreads "main" JVMTI_ERROR_NONE)
        (fun _ => false) ∧
      ¬ Balanced (twoThreads "worker" JVMTI_ERROR_OUT_OF_MEMORY)
        (fun _ => false) := by
  constructor
  · rintro ⟨s, hCreate, hBalanced⟩
    have hAnswered :
        Answered (twoThreads "main" JVMTI_ERROR_NONE) :=
      ⟨rfl, rfl, rfl, fun _ _ => rfl⟩
    have hDone :=
      hBalanced.complete hAnswered 1 (by decide) (by decide)
        ⟨rfl, rfl⟩
    rw [← Option.some.inj hCreate] at hDone
    exact absurd hDone (by decide)
  · rintro ⟨s, hCreate, _⟩
    cases hCreate

end ThreadSuspender

end MemoryAgent
