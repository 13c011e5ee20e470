import MemoryMappingModule.Interleaving
import MemoryMappingModule.ThreadObjects

/-! `runOnAllCores` and the threads it creates, step by step and in any order. The caller and
the thread of the core it has come to take turns; a thread runs its callback from when it is no
longer suspended. If threads are not detached, the callbacks run one after the other, no memory
of a thread is freed before the thread is done, and the caller comes back with all of it
done. -/

namespace MemoryMappingModule.CoreThreads

open Interleaving StepLoop MappingLayout SystemCalls ThreadObjects

/-- What the caller does next about the thread object of a core. -/
inductive Point where
  | allocThread
  | allocStack
  | create
  /-- `resumeThread`, after the constructor -/
  | askFirst
  | resumeFirst
  /-- the condition of the loop in `shutdownThread` -/
  | askWhile
  /-- `resumeThread` in that loop -/
  | askAgain
  | resumeAgain
  | join
  | freeStack
  | freeThread
deriving DecidableEq, Repr

/-- A core, what the allocations for its thread object return, and the callback as it runs
there: steps on what the threads share. -/
structure Core (σ : Type*) where
  affinity : U32
  pThread : U32
  pThreadStack : U32
  callback : List (σ → σ)

structure Thread (σ : Type*) where
  suspendCount : ℕ
  rest : List (σ → σ)
  ended : Bool

/-- How threads are launched: the suspend count of a new thread, and what the constructor hands
to the system. -/
structure Launch where
  suspended : ℕ
  sizeofOSThread : U32
  threadCallback : U32
  iAttr : U32
  iPriority : U32
  iStackSize : U32

structure State (σ : Type*) where
  shared : σ
  /-- The cores that are not done yet; the caller is at the first one. -/
  cores : List (Core σ)
  point : Point
  thread : Option (Thread σ)
  /-- Memory of the thread was freed. -/
  freed : Bool
  history : History

variable {σ : Type*}

def Core.Created (core : Core σ) : Prop := core.pThread ≠ 0 ∧ core.pThreadStack ≠ 0

instance (core : Core σ) : Decidable core.Created := inferInstanceAs (Decidable (_ ∧ _))

/-- A thread that is not done lacks memory. -/
def State.Dangling (s : State σ) : Prop := s.freed = true ∧ ∃ t ∈ s.thread, t.ended = false

instance (s : State σ) : Decidable s.Dangling :=
  match h : s.thread with
  | none => isFalse (by simp [State.Dangling, h])
  | some t => decidable_of_iff (s.freed = true ∧ t.ended = false) (by simp [State.Dangling, h])

def State.moved (s : State σ) (point : Point) (thread : Option (Thread σ)) (freed : Bool)
    (made : History) : State σ :=
  ⟨s.shared, s.cores, point, thread, freed, s.history ++ made⟩

section Program

variable (launch : Launch)

def threadFree (core : Core σ) : History :=
  if core.pThread ≠ 0 then [.memset core.pThread launch.sizeofOSThread, .memFree core.pThread]
  else []

/-- A step of the caller at a core; `suspended` is the suspend count of a new thread. Calls
about a thread that was not created have no defined outcome. -/
def callerStep (core : Core σ) (rest : List (Core σ)) (s : State σ) : Option (State σ) :=
  let ask (yes no : Point) : Option (State σ) := s.thread.map fun t =>
    s.moved (if 0 < t.suspendCount then yes else no) s.thread s.freed
      [.onThread .osIsThreadSuspended core.pThread]
  let resume : Option (State σ) := s.thread.map fun t =>
    s.moved .askWhile (some { t with suspendCount := t.suspendCount - 1 }) s.freed
      [.onThread .osResumeThread core.pThread]
  match s.point with
  | .allocThread =>
    some (s.moved .allocStack s.thread s.freed [.memAlloc launch.sizeofOSThread 0x10 core.pThread])
  | .allocStack =>
    some (s.moved .create s.thread s.freed [.memAlloc launch.iStackSize 0x20 core.pThreadStack])
  | .create =>
    if core.Created then
      some (s.moved .askFirst (some ⟨launch.suspended, core.callback, false⟩) false
        [.osCreateThread core.pThread launch.threadCallback
          (core.pThreadStack + launch.iStackSize) launch.iStackSize launch.iPriority
          (launch.iAttr ||| core.affinity)])
    else some (s.moved .askFirst s.thread s.freed [])
  | .askFirst =>
    if core.pThread ≠ 0 then ask .resumeFirst .askWhile
    else some (s.moved .askWhile s.thread s.freed [])
  | .resumeFirst => resume
  | .askWhile =>
    if core.pThread ≠ 0 ∧ ¬ Detached (launch.iAttr ||| core.affinity) then ask .askAgain .join
    else some (s.moved .freeStack s.thread s.freed [])
  | .askAgain => ask .resumeAgain .askWhile
  | .resumeAgain => resume
  | .join => s.thread.bind fun t =>
    if t.ended then
      some (s.moved .freeStack s.thread s.freed [.onThread .osJoinThread core.pThread])
    else none
  | .freeStack =>
    if core.pThreadStack ≠ 0 then
      some (s.moved .freeThread s.thread true
        [.memset core.pThreadStack launch.iStackSize, .memFree core.pThreadStack])
    else some (s.moved .freeThread s.thread s.freed [])
  | .freeThread =>
    some ⟨s.shared, rest, .allocThread, none, s.freed,
      s.history ++ threadFree launch core⟩

def threadStep (s : State σ) : Option (State σ) :=
  s.thread.bind fun t =>
    if t.suspendCount = 0 ∧ t.ended = false then
      match t.rest with
      | f :: rest => some { s with shared := f s.shared, thread := some { t with rest := rest } }
      | [] => some { s with thread := some { t with ended := true } }
    else none

inductive Party where
  | caller
  | thread
deriving DecidableEq, Repr

/-- A thread may take its next step, or the caller. What happens after a dangling thread is not
defined. -/
def step (p : Party) (s : State σ) : Option (State σ) :=
  if s.Dangling then none
  else
    match p, s.cores with
    | .thread, _ => threadStep s
    | .caller, [] => none
    | .caller, core :: rest => callerStep launch core rest s

def start (cores : List (Core σ)) (shared : σ) (h : History) : State σ :=
  ⟨shared, cores, .allocThread, none, false, h⟩

end Program

section Outcome

def applyAll (fs : List (σ → σ)) (x : σ) : σ := fs.foldl (fun x f => f x) x

/-- The callbacks of the cores whose threads are created, one after the other. -/
def runCallbacks : List (Core σ) → σ → σ
  | [], x => x
  | core :: rest, x => runCallbacks rest (if core.Created then applyAll core.callback x else x)

def Point.Opening (p : Point) : Prop := p = .allocThread ∨ p = .allocStack ∨ p = .create

instance (p : Point) : Decidable p.Opening := inferInstanceAs (Decidable (_ ∨ _))

/-- What the threads share once all that is left was done in order. -/
def State.outcome (s : State σ) : σ :=
  match s.cores with
  | [] => s.shared
  | core :: rest =>
    if s.point.Opening then runCallbacks (core :: rest) s.shared
    else runCallbacks rest (applyAll (s.thread.elim [] Thread.rest) s.shared)

variable (launch : Launch)

def awaited (pThread : U32) : ℕ → History
  | 0 => [.onThread .osIsThreadSuspended pThread]
  | k + 1 => .onThread .osIsThreadSuspended pThread :: .onThread .osIsThreadSuspended pThread ::
    .onThread .osResumeThread pThread :: awaited pThread k

def frees (core : Core σ) : History :=
  (if core.pThreadStack ≠ 0 then
    [.memset core.pThreadStack launch.iStackSize, .memFree core.pThreadStack] else []) ++
    threadFree launch core

def joined (core : Core σ) : History :=
  .onThread .osJoinThread core.pThread :: frees launch core

def resumed (core : Core σ) (k : ℕ) : History :=
  .onThread .osResumeThread core.pThread ::
    (awaited core.pThread (k - 1) ++ joined launch core)

def shutDown (core : Core σ) (k : ℕ) : History :=
  if core.pThread ≠ 0 then awaited core.pThread k ++ joined launch core
  else frees launch core

def asked (core : Core σ) (k : ℕ) : History :=
  if core.pThread ≠ 0 then
    .onThread .osIsThreadSuspended core.pThread ::
      if 0 < k then resumed launch core k
      else shutDown launch core k
  else shutDown launch core k

def created (core : Core σ) (k : ℕ) : History :=
  (if core.Created then [.osCreateThread core.pThread launch.threadCallback
    (core.pThreadStack + launch.iStackSize) launch.iStackSize launch.iPriority
    (launch.iAttr ||| core.affinity)] else []) ++
    asked launch core k

def upcoming (core : Core σ) (k : ℕ) : Point → History
  | .allocThread => .memAlloc launch.sizeofOSThread 0x10 core.pThread ::
    .memAlloc launch.iStackSize 0x20 core.pThreadStack ::
    created launch core k
  | .allocStack => .memAlloc launch.iStackSize 0x20 core.pThreadStack ::
    created launch core k
  | .create => created launch core k
  | .askFirst => asked launch core k
  | .resumeFirst => resumed launch core k
  | .askWhile => shutDown launch core k
  | .askAgain => .onThread .osIsThreadSuspended core.pThread ::
    resumed launch core k
  | .resumeAgain => resumed launch core k
  | .join => joined launch core
  | .freeStack => frees launch core
  | .freeThread => threadFree launch core

def State.count (s : State σ) : ℕ := s.thread.elim launch.suspended Thread.suspendCount

def coreCalls (core : Core σ) : History :=
  upcoming launch core launch.suspended .allocThread

def State.calls (s : State σ) : History :=
  s.history ++
    match s.cores with
    | [] => []
    | core :: rest =>
      upcoming launch core (s.count launch) s.point ++ rest.flatMap (coreCalls launch)

/-- A bound on the steps of the caller at a core. -/
def Point.left (k : ℕ) : Point → ℕ
  | .allocThread => 3 * k + 8
  | .allocStack => 3 * k + 7
  | .create => 3 * k + 6
  | .askFirst => 3 * k + 5
  | .askWhile => 3 * k + 4
  | .askAgain => 3 * k + 3
  | .resumeFirst => 3 * k + 2
  | .resumeAgain => 3 * k + 2
  | .join => 3
  | .freeStack => 2
  | .freeThread => 1

def threadLeft (core : Core σ) (p : Point) : Option (Thread σ) → ℕ
  | some t => t.rest.length + if t.ended then 0 else 1
  | none => if p.Opening then core.callback.length + 1 else 0

def coreLeft (core : Core σ) : ℕ :=
  Point.left launch.suspended .allocThread + threadLeft core .allocThread none

def State.left (s : State σ) : ℕ :=
  match s.cores with
  | [] => 0
  | core :: rest => s.point.left (s.count launch) + threadLeft core s.point s.thread +
    (rest.map (coreLeft launch)).sum

end Outcome

section Invariant

variable {launch : Launch}
  {s s' : State σ} {core : Core σ} {rest : List (Core σ)} {t : Thread σ} {p : Point}

def AtPoint (core : Core σ) (thread : Option (Thread σ)) : Point → Prop
  | .allocThread | .allocStack | .create => thread = none
  | .askFirst | .askWhile => thread.isSome ↔ core.Created
  | .resumeFirst | .askAgain | .resumeAgain =>
    core.Created ∧ ∃ t, thread = some t ∧ 0 < t.suspendCount
  | .join => core.Created ∧ ∃ t, thread = some t ∧ t.suspendCount = 0
  | .freeStack | .freeThread =>
    (thread.isSome ↔ core.Created) ∧ ∀ t, thread = some t → t.ended = true

/-- A core whose thread is created if there is memory for it, and then not detached. -/
structure Core.Served (launch : Launch) (core : Core σ) : Prop where
  both : core.pThread = 0 ∨ core.pThreadStack ≠ 0
  attached : core.Created → ¬ Detached (launch.iAttr ||| core.affinity)

theorem Core.Served.created_iff (h : core.Served launch) : core.Created ↔ core.pThread ≠ 0 := by
  have hboth := h.both
  rw [Core.Created]
  tauto

structure Ok (launch : Launch) (s : State σ) : Prop where
  served : ∀ core ∈ s.cores, core.Served launch
  attends : ∀ core rest, s.cores = core :: rest → AtPoint core s.thread s.point
  idle : s.cores = [] → s.thread = none
  ended : ∀ t, s.thread = some t → t.ended = true → t.rest = []
  safe : ¬ s.Dangling

variable (launch) in
structure Advances (s s' : State σ) : Prop where
  ok : Ok launch s'
  outcome : s'.outcome = s.outcome
  calls : s'.calls launch = s.calls launch
  left : s'.left launch < s.left launch

theorem not_dangling_of_thread {s s' : State σ} (hok : ¬ s.Dangling)
    (hthread : ∀ t' ∈ s'.thread, ∃ t ∈ s.thread, t.ended = t'.ended)
    (hfreed : s'.freed = s.freed) : ¬ s'.Dangling := by
  rintro ⟨hfree, t', ht', hgoes⟩
  obtain ⟨t, ht, hsame⟩ := hthread t' ht'
  exact hok ⟨hfreed ▸ hfree, t, ht, hsame.trans hgoes⟩

theorem Ok.advances (hok : Ok launch s) (hcores : s.cores = core :: rest)
    {thread : Option (Thread σ)} {freed : Bool} {made : History} (hat : AtPoint core thread p)
    (hended : ∀ t, thread = some t → t.ended = true → t.rest = [])
    (hsafe : ¬ (s.moved p thread freed made).Dangling)
    (houtcome : (s.moved p thread freed made).outcome = s.outcome)
    (hcalls : made ++ upcoming launch core (thread.elim launch.suspended Thread.suspendCount) p =
      upcoming launch core (s.count launch) s.point)
    (hleft : p.left (thread.elim launch.suspended Thread.suspendCount) + threadLeft core p thread <
      s.point.left (s.count launch) + threadLeft core s.point s.thread) :
    Advances launch s (s.moved p thread freed made) := by
  refine ⟨⟨hok.served, ?_, ?_, hended, hsafe⟩, houtcome, ?_, ?_⟩
  · intro core' rest' hcores'
    obtain ⟨rfl, rfl⟩ := List.cons.inj (hcores.symm.trans hcores')
    exact hat
  · intro hnil
    exact absurd (hcores.symm.trans hnil) (List.cons_ne_nil _ _)
  · simp only [State.calls, State.moved, hcores]
    rw [← hcalls]
    simp only [State.count, List.append_assoc]
  · simp only [State.left, State.moved, hcores]
    exact Nat.add_lt_add_right hleft _

theorem outcome_moved (hcores : s.cores = core :: rest) {thread : Option (Thread σ)} {freed : Bool}
    {made : History} (hp : ¬ p.Opening) (hpoint : ¬ s.point.Opening)
    (hrest : thread.elim [] Thread.rest = s.thread.elim [] Thread.rest) :
    (s.moved p thread freed made).outcome = s.outcome := by
  simp only [State.outcome, State.moved, hcores, if_neg hp, if_neg hpoint, hrest]

theorem ask_advances (hok : Ok launch s) (hcores : s.cores = core :: rest)
    (hthread : s.thread = some t) (hpoint : ¬ s.point.Opening) (hp : ¬ p.Opening)
    (hat : AtPoint core s.thread p)
    (hcalls : .onThread .osIsThreadSuspended core.pThread :: upcoming launch core t.suspendCount p =
      upcoming launch core t.suspendCount s.point)
    (hleft : p.left t.suspendCount < s.point.left t.suspendCount) :
    Advances launch s
      (s.moved p s.thread s.freed [.onThread .osIsThreadSuspended core.pThread]) := by
  have hcount : s.count launch = t.suspendCount := by rw [State.count, hthread]; rfl
  refine hok.advances hcores hat hok.ended hok.safe (outcome_moved hcores hp hpoint rfl) ?_ ?_
  · rw [hcount, ← hcalls, hthread]
    rfl
  · rw [hcount, hthread]
    exact Nat.add_lt_add_right hleft _

theorem resume_advances (hok : Ok launch s) (hcores : s.cores = core :: rest)
    (hpoint : s.point = .resumeFirst ∨ s.point = .resumeAgain) (hcreated : core.Created)
    (hthread : s.thread = some t) (hsuspended : 0 < t.suspendCount) :
    Advances launch s (s.moved .askWhile (some { t with suspendCount := t.suspendCount - 1 })
      s.freed [.onThread .osResumeThread core.pThread]) := by
  have hcount : s.count launch = t.suspendCount := by rw [State.count, hthread]; rfl
  have hopening : ¬ s.point.Opening := by
    rcases hpoint with h | h <;> rw [h] <;> decide
  have hnow : upcoming launch core t.suspendCount s.point =
      resumed launch core t.suspendCount := by
    rcases hpoint with h | h <;> rw [h] <;> rfl
  have hleft : s.point.left t.suspendCount = 3 * t.suspendCount + 2 := by
    rcases hpoint with h | h <;> rw [h] <;> rfl
  refine hok.advances hcores (iff_of_true rfl hcreated) ?_ ?_
    (outcome_moved hcores (by decide) hopening (by rw [hthread]; rfl)) ?_ ?_
  · intro t' ht' hended
    obtain rfl := Option.some.inj ht'
    exact hok.ended t hthread hended
  · refine not_dangling_of_thread hok.safe (fun t' ht' => ⟨t, hthread, ?_⟩) rfl
    obtain rfl := Option.some.inj ht'
    rfl
  · rw [hcount, hnow]
    simp only [upcoming, shutDown, resumed, Option.elim_some, if_pos hcreated.1,
      List.singleton_append]
  · rw [hcount, hleft, hthread]
    simp only [Point.left, Option.elim_some, threadLeft]
    omega

theorem skip_advances (hok : Ok launch s) (hcores : s.cores = core :: rest)
    (hpoint : ¬ s.point.Opening) (hp : ¬ p.Opening) (hat : AtPoint core s.thread p)
    (hcalls : upcoming launch core (s.count launch) p =
      upcoming launch core (s.count launch) s.point)
    (hleft : p.left (s.count launch) < s.point.left (s.count launch)) :
    Advances launch s (s.moved p s.thread s.freed []) := by
  refine hok.advances hcores hat hok.ended hok.safe (outcome_moved hcores hp hpoint rfl) hcalls ?_
  have hsame : threadLeft core p s.thread = threadLeft core s.point s.thread := by
    cases s.thread <;> simp [threadLeft, hp, hpoint]
  rw [hsame]
  exact Nat.add_lt_add_right hleft _

theorem freeStack_advances (hok : Ok launch s) (hcores : s.cores = core :: rest)
    (hpoint : s.point = .freeStack) {freed : Bool} {made : History}
    (hmade : made = if core.pThreadStack ≠ 0 then
      [.memset core.pThreadStack launch.iStackSize, .memFree core.pThreadStack] else []) :
    Advances launch s (s.moved .freeThread s.thread freed made) := by
  have hat := hok.attends core rest hcores
  rw [hpoint] at hat
  refine hok.advances hcores hat hok.ended ?_
    (outcome_moved hcores (by decide) (by rw [hpoint]; decide) rfl) ?_ ?_
  · rintro ⟨_, t, ht, hgoes⟩
    exact absurd (hat.2 t ht) (by rw [hgoes]; decide)
  · rw [hpoint, hmade]
    rfl
  · rw [hpoint]
    cases s.thread <;> simp [Point.left, threadLeft, Point.Opening]

theorem freeThread_advances (hok : Ok launch s) (hcores : s.cores = core :: rest)
    (hpoint : s.point = .freeThread) :
    Advances launch s ⟨s.shared, rest, .allocThread, none, s.freed,
        s.history ++ threadFree launch core⟩ := by
  have hat := hok.attends core rest hcores
  rw [hpoint] at hat
  have hrest : s.thread.elim [] Thread.rest = [] := by
    cases hthread : s.thread with
    | none => rfl
    | some t => exact hok.ended t hthread (hat.2 t hthread)
  have hnone (t : Thread σ) : none ≠ some t := nofun
  refine ⟨⟨fun c hc => hok.served c (hcores ▸ List.mem_cons_of_mem _ hc), fun _ _ _ => rfl,
    fun _ => rfl, fun t ht => absurd ht (hnone t), ?_⟩, ?_, ?_, ?_⟩
  · rintro ⟨_, t, ht, _⟩
    exact hnone t ht
  · simp only [State.outcome, hcores, hpoint, hrest]
    cases rest <;> rfl
  · simp only [State.calls, hcores, hpoint, upcoming]
    cases rest with
    | nil => simp
    | cons next rest =>
      simp only [State.count, Option.elim_none, List.flatMap_cons, List.append_assoc]
      rfl
  · simp only [State.left, hcores, hpoint, Point.left]
    cases rest with
    | nil => simp
    | cons next rest =>
      simp only [State.count, Option.elim_none, List.map_cons, List.sum_cons, coreLeft, Point.left]
      omega

section Points

variable (hok : Ok launch s) (hcores : s.cores = core :: rest)
  (hstep : callerStep launch core rest s = some s')
include hok hcores hstep

theorem alloc_advances (hpoint : s.point = .allocThread ∨ s.point = .allocStack) :
    Advances launch s s' := by
  have hat := hok.attends core rest hcores
  rcases hpoint with hpoint | hpoint
  all_goals
    rw [hpoint] at hat
    simp only [callerStep, hpoint] at hstep
    obtain rfl := Option.some.inj hstep
    refine hok.advances hcores hat hok.ended hok.safe ?_ ?_ ?_
    · simp [State.outcome, State.moved, hcores, hpoint, Point.Opening]
    · rw [hpoint]
      rfl
    · rw [hpoint, State.count, show s.thread = none from hat]
      simp [Point.left, threadLeft, Point.Opening]

theorem create_advances (hpoint : s.point = .create) : Advances launch s s' := by
  have hnone : s.thread = none := by
    have hat := hok.attends core rest hcores
    rwa [hpoint] at hat
  simp only [callerStep, hpoint] at hstep
  split_ifs at hstep with hcreated <;> obtain rfl := Option.some.inj hstep
  · refine hok.advances hcores (iff_of_true rfl hcreated) ?_ ?_ ?_ ?_ ?_
    · intro t ht hended
      obtain rfl := Option.some.inj ht
      cases hended
    · exact fun h => absurd h.1 Bool.false_ne_true
    · simp [State.outcome, State.moved, hcores, hpoint, Point.Opening, runCallbacks, hcreated]
    · rw [hpoint, State.count, hnone]
      simp only [upcoming, created, if_pos hcreated]
      rfl
    · rw [hpoint, State.count, hnone]
      simp [Point.left, threadLeft, Point.Opening]
  · refine hok.advances hcores (iff_of_false (by simp [hnone]) hcreated) hok.ended hok.safe
      ?_ ?_ ?_
    · simp [State.outcome, State.moved, hcores, hpoint, Point.Opening, runCallbacks, hcreated,
        hnone, applyAll]
    · rw [hpoint]
      simp only [upcoming, created, if_neg hcreated, State.count]
    · rw [hpoint, State.count, hnone]
      have hbehind : ¬ Point.askFirst.Opening := by decide
      have hopening : Point.create.Opening := by decide
      simp only [Point.left, threadLeft, if_neg hbehind, if_pos hopening]
      omega

theorem askFirst_advances (hpoint : s.point = .askFirst) : Advances launch s s' := by
  have hserved := hok.served core (hcores ▸ List.mem_cons_self)
  have hat : s.thread.isSome ↔ core.Created := by
    have hat := hok.attends core rest hcores
    rwa [hpoint] at hat
  simp only [callerStep, hpoint] at hstep
  split_ifs at hstep with hthread
  · have hcreated := hserved.created_iff.mpr hthread
    obtain ⟨t, ht⟩ := Option.isSome_iff_exists.mp (hat.mpr hcreated)
    rw [ht, Option.map_some, ← ht] at hstep
    obtain rfl := Option.some.inj hstep
    by_cases hsuspended : 0 < t.suspendCount
    · rw [if_pos hsuspended]
      refine ask_advances hok hcores ht (by rw [hpoint]; decide) (by decide)
        ⟨hcreated, t, ht, hsuspended⟩ ?_ ?_
      · simp only [hpoint, upcoming, asked, if_pos hthread, if_pos hsuspended]
      · rw [hpoint]
        simp [Point.left]
    · rw [if_neg hsuspended]
      refine ask_advances hok hcores ht (by rw [hpoint]; decide) (by decide) hat ?_ ?_
      · simp only [hpoint, upcoming, asked, if_pos hthread, if_neg hsuspended]
      · rw [hpoint]
        simp [Point.left]
  · obtain rfl := Option.some.inj hstep
    refine skip_advances hok hcores (by rw [hpoint]; decide) (by decide) hat ?_ ?_
    · rw [hpoint]
      simp only [upcoming, asked, if_neg hthread]
    · rw [hpoint]
      exact Nat.lt_succ_self _

theorem askWhile_advances (hpoint : s.point = .askWhile) : Advances launch s s' := by
  have hserved := hok.served core (hcores ▸ List.mem_cons_self)
  have hat : s.thread.isSome ↔ core.Created := by
    have hat := hok.attends core rest hcores
    rwa [hpoint] at hat
  simp only [callerStep, hpoint] at hstep
  by_cases hthread : core.pThread ≠ 0
  · have hcreated := hserved.created_iff.mpr hthread
    obtain ⟨t, ht⟩ := Option.isSome_iff_exists.mp (hat.mpr hcreated)
    rw [if_pos ⟨hthread, hserved.attached hcreated⟩, ht, Option.map_some, ← ht] at hstep
    obtain rfl := Option.some.inj hstep
    by_cases hsuspended : 0 < t.suspendCount
    · obtain ⟨k, hk⟩ := Nat.exists_eq_add_one.mpr hsuspended
      rw [if_pos hsuspended]
      refine ask_advances hok hcores ht (by rw [hpoint]; decide) (by decide)
        ⟨hcreated, t, ht, hsuspended⟩ ?_ ?_
      · simp only [hpoint, upcoming, shutDown, resumed, if_pos hthread, hk, awaited,
          Nat.add_sub_cancel, List.cons_append]
      · rw [hpoint]
        exact Nat.lt_succ_self _
    · have hzero : t.suspendCount = 0 := Nat.eq_zero_of_not_pos hsuspended
      rw [if_neg hsuspended]
      refine ask_advances hok hcores ht (by rw [hpoint]; decide) (by decide)
        ⟨hcreated, t, ht, hzero⟩ ?_ ?_
      · simp only [hpoint, upcoming, shutDown, if_pos hthread, hzero, awaited, List.cons_append,
          List.nil_append]
      · rw [hpoint]
        exact Nat.lt_of_lt_of_le (Nat.lt_succ_self 3) (Nat.le_add_left _ _)
  · have hnone : s.thread = none := Option.not_isSome_iff_eq_none.mp fun hsome =>
      hthread (hserved.created_iff.mp (hat.mp hsome))
    rw [if_neg fun h => hthread h.1] at hstep
    obtain rfl := Option.some.inj hstep
    refine skip_advances hok hcores (by rw [hpoint]; decide) (by decide)
      ⟨hat, fun t ht => absurd (hnone.symm.trans ht) nofun⟩ ?_ ?_
    · rw [hpoint]
      simp only [upcoming, shutDown, if_neg hthread]
    · rw [hpoint]
      exact Nat.lt_of_lt_of_le (by decide : 2 < 4) (Nat.le_add_left _ _)

theorem join_advances (hpoint : s.point = .join) : Advances launch s s' := by
  have hat := hok.attends core rest hcores
  rw [hpoint] at hat
  obtain ⟨hcreated, t, ht, _⟩ := hat
  simp only [callerStep, hpoint, ht, Option.bind_some] at hstep
  rw [← ht] at hstep
  split_ifs at hstep with hended
  obtain rfl := Option.some.inj hstep
  refine hok.advances hcores ⟨iff_of_true (by rw [ht]; rfl) hcreated, ?_⟩ hok.ended hok.safe
    (outcome_moved hcores (by decide) (by rw [hpoint]; decide) rfl) ?_ ?_
  · intro t' ht'
    rw [← Option.some.inj (ht.symm.trans ht')]
    exact hended
  · rw [hpoint]
    rfl
  · rw [hpoint, ht]
    simp [Point.left, threadLeft]

theorem callerStep_advances : Advances launch s s' := by
  have hat := hok.attends core rest hcores
  cases hpoint : s.point <;> rw [hpoint] at hat
  case allocThread => exact alloc_advances hok hcores hstep (.inl hpoint)
  case allocStack => exact alloc_advances hok hcores hstep (.inr hpoint)
  case create => exact create_advances hok hcores hstep hpoint
  case askFirst => exact askFirst_advances hok hcores hstep hpoint
  case askWhile => exact askWhile_advances hok hcores hstep hpoint
  case join => exact join_advances hok hcores hstep hpoint
  all_goals simp only [callerStep, hpoint] at hstep
  case resumeFirst =>
    obtain ⟨hcreated, t, hthread, hsuspended⟩ := hat
    rw [hthread, Option.map_some] at hstep
    obtain rfl := Option.some.inj hstep
    exact resume_advances hok hcores (.inl hpoint) hcreated hthread hsuspended
  case askAgain =>
    obtain ⟨hcreated, t, ht, hsuspended⟩ := hat
    rw [ht, Option.map_some, if_pos hsuspended, ← ht] at hstep
    obtain rfl := Option.some.inj hstep
    refine ask_advances hok hcores ht (by rw [hpoint]; decide) (by decide)
      ⟨hcreated, t, ht, hsuspended⟩ ?_ ?_
    · rw [hpoint]
      rfl
    · rw [hpoint]
      exact Nat.lt_succ_self _
  case resumeAgain =>
    obtain ⟨hcreated, t, hthread, hsuspended⟩ := hat
    rw [hthread, Option.map_some] at hstep
    obtain rfl := Option.some.inj hstep
    exact resume_advances hok hcores (.inr hpoint) hcreated hthread hsuspended
  case freeStack =>
    split_ifs at hstep with hstack <;> obtain rfl := Option.some.inj hstep
    · exact freeStack_advances hok hcores hpoint (if_pos hstack).symm
    · exact freeStack_advances hok hcores hpoint (if_neg hstack).symm
  case freeThread =>
    obtain rfl := Option.some.inj hstep
    exact freeThread_advances hok hcores hpoint

end Points

theorem Ok.behind (hok : Ok launch s) (hthread : s.thread = some t) :
    ∃ core rest, s.cores = core :: rest ∧ ¬ s.point.Opening := by
  cases hcores : s.cores with
  | nil => exact absurd (hthread.symm.trans (hok.idle hcores)) nofun
  | cons core rest =>
    have hat := hok.attends core rest hcores
    rw [hthread] at hat
    refine ⟨core, rest, rfl, ?_⟩
    rintro (h | h | h) <;> rw [h] at hat <;> exact absurd hat nofun

theorem AtPoint.goes {t' : Thread σ} (hat : AtPoint core (some t) p)
    (hcount : t'.suspendCount = t.suspendCount) (hended : t.ended = true → t'.ended = true) :
    AtPoint core (some t') p := by
  have hlast : (∀ u, some t = some u → u.ended = true) →
      ∀ u, some t' = some u → u.ended = true := by
    intro hall u hu
    rw [← Option.some.inj hu]
    exact hended (hall t rfl)
  have hcounted {P : ℕ → Prop} : (∃ u, some t = some u ∧ P u.suspendCount) →
      ∃ u, some t' = some u ∧ P u.suspendCount := by
    rintro ⟨u, hu, hP⟩
    exact ⟨t', rfl, by rwa [hcount, Option.some.inj hu]⟩
  cases p with
  | allocThread => exact absurd hat nofun
  | allocStack => exact absurd hat nofun
  | create => exact absurd hat nofun
  | askFirst => exact hat
  | askWhile => exact hat
  | resumeFirst => exact ⟨hat.1, hcounted hat.2⟩
  | askAgain => exact ⟨hat.1, hcounted hat.2⟩
  | resumeAgain => exact ⟨hat.1, hcounted hat.2⟩
  | join => exact ⟨hat.1, hcounted (P := (· = 0)) hat.2⟩
  | freeStack => exact ⟨hat.1, hlast hat.2⟩
  | freeThread => exact ⟨hat.1, hlast hat.2⟩

theorem thread_advances {t' : Thread σ} {shared : σ} (hok : Ok launch s)
    (hthread : s.thread = some t) (hgoes : t.ended = false)
    (hcount : t'.suspendCount = t.suspendCount)
    (hended : t'.ended = true → t'.rest = [])
    (hshared : applyAll t'.rest shared = applyAll t.rest s.shared)
    (hleft : t'.rest.length + (if t'.ended then 0 else 1) < t.rest.length + 1) :
    Advances launch s { s with shared := shared, thread := some t' } := by
  obtain ⟨core, rest, hcores, hpoint⟩ := hok.behind hthread
  have hat := hok.attends core rest hcores
  rw [hthread] at hat
  refine ⟨⟨hok.served, ?_, ?_, ?_, ?_⟩, ?_, ?_, ?_⟩
  · intro core' rest' hcores'
    obtain ⟨rfl, rfl⟩ := List.cons.inj (hcores.symm.trans hcores')
    exact hat.goes hcount fun h => absurd h (by rw [hgoes]; decide)
  · intro hnil
    exact absurd (hcores.symm.trans hnil) (List.cons_ne_nil _ _)
  · intro u hu
    rw [← Option.some.inj hu]
    exact hended
  · rintro ⟨hfreed, _⟩
    exact hok.safe ⟨hfreed, t, hthread, hgoes⟩
  · simp only [State.outcome, hcores, if_neg hpoint, hthread, Option.elim_some, hshared]
  · simp only [State.calls, State.count, hcores, hthread, Option.elim_some, hcount]
  · simp only [State.left, State.count, hcores, hthread, Option.elim_some, hcount, threadLeft,
      hgoes, Bool.false_eq_true, if_false]
    omega

theorem threadStep_advances (hok : Ok launch s) (hstep : threadStep s = some s') :
    Advances launch s s' := by
  obtain ⟨t, hthread, hstep⟩ := Option.bind_eq_some_iff.mp hstep
  split_ifs at hstep with hgoes
  cases hrest : t.rest with
  | nil =>
    rw [hrest] at hstep
    obtain rfl := Option.some.inj hstep
    refine thread_advances hok hthread hgoes.2 rfl (fun _ => rfl) (by rw [hrest]) ?_
    simp [hrest]
  | cons f fs =>
    rw [hrest] at hstep
    obtain rfl := Option.some.inj hstep
    refine thread_advances hok hthread hgoes.2 rfl (fun h => ?_) ?_ ?_
    · exact absurd h (by simp [hgoes.2])
    · rw [hrest]
      rfl
    · simp [hrest, hgoes.2]

theorem step_advances (p : Party) (hok : Ok launch s) (hstep : step launch p s = some s') :
    Advances launch s s' := by
  unfold step at hstep
  rw [if_neg hok.safe] at hstep
  cases p with
  | thread => exact threadStep_advances hok hstep
  | caller =>
    cases hcores : s.cores with
    | nil =>
      rw [hcores] at hstep
      cases hstep
    | cons core rest =>
      rw [hcores] at hstep
      exact callerStep_advances hok hcores hstep

theorem callerStep_waits (hok : Ok launch s) (hcores : s.cores = core :: rest)
    (hnone : callerStep launch core rest s = none) : s.point = .join := by
  have hat := hok.attends core rest hcores
  have hserved := hok.served core (hcores ▸ List.mem_cons_self)
  have hthread (hcreated : s.thread.isSome ↔ core.Created) (hp : core.pThread ≠ 0) :
      s.thread ≠ none :=
    Option.isSome_iff_ne_none.mp (hcreated.mpr (hserved.created_iff.mpr hp))
  cases hpoint : s.point <;> rw [hpoint] at hat <;> simp only [callerStep, hpoint] at hnone
  case create => split_ifs at hnone
  case askFirst =>
    split_ifs at hnone with hp
    exact absurd (Option.map_eq_none_iff.mp hnone) (hthread hat hp)
  case resumeFirst =>
    obtain ⟨_, t, ht, _⟩ := hat
    exact absurd (ht.symm.trans (Option.map_eq_none_iff.mp hnone)) nofun
  case askWhile =>
    split_ifs at hnone with hp
    exact absurd (Option.map_eq_none_iff.mp hnone) (hthread hat hp.1)
  case askAgain =>
    obtain ⟨_, t, ht, _⟩ := hat
    exact absurd (ht.symm.trans (Option.map_eq_none_iff.mp hnone)) nofun
  case resumeAgain =>
    obtain ⟨_, t, ht, _⟩ := hat
    exact absurd (ht.symm.trans (Option.map_eq_none_iff.mp hnone)) nofun
  case freeStack => split_ifs at hnone
  all_goals cases hnone

theorem Ok.done_of_stuck (hok : Ok launch s) (hstuck : Stuck (step launch) s) : s.cores = [] := by
  by_contra hcores
  obtain ⟨core, rest, hcores⟩ := List.exists_cons_of_ne_nil hcores
  have hcaller := hstuck .caller
  have hthread := hstuck .thread
  simp only [step, if_neg hok.safe, hcores] at hcaller hthread
  have hpoint := callerStep_waits hok hcores hcaller
  have hat := hok.attends core rest hcores
  rw [hpoint] at hat
  obtain ⟨_, t, ht, hcount⟩ := hat
  cases hended : t.ended with
  | true =>
    simp only [callerStep, hpoint, ht, Option.bind_some, hended, if_true] at hcaller
    cases hcaller
  | false =>
    simp only [threadStep, ht, Option.bind_some, hcount, hended, true_and, if_true] at hthread
    split at hthread <;> cases hthread

end Invariant

section Sequential

/-- A system whose new threads have a suspend count of `n`. -/
def countingFrom (n : ℕ) : OS where
  suspendCount h thread := h.foldl (fun k c =>
    match c with
    | .osCreateThread t .. => if t = thread then n else k
    | .onThread .osResumeThread t => if t = thread then k - 1 else k
    | _ => k) 0
  isTerminated _ _ := false
  affinity _ _ := 0x07

variable {k : ℕ} {n : ℕ} {h : History} {t : CThread} {launch : Launch}

theorem count_ask (n : ℕ) (h : History) (thread : U32) :
    (countingFrom n).suspendCount (h ++ [.onThread .osIsThreadSuspended thread]) thread =
      (countingFrom n).suspendCount h thread := by
  simp [countingFrom, List.foldl_append]

theorem count_resume (n : ℕ) (h : History) (thread : U32) :
    (countingFrom n).suspendCount (h ++ [.onThread .osResumeThread thread]) thread =
      (countingFrom n).suspendCount h thread - 1 := by
  simp [countingFrom, List.foldl_append]

theorem count_create (n : ℕ) (h : History) (thread : U32) (entry stackTop size prio attr : U32) :
    (countingFrom n).suspendCount
      (h ++ [.osCreateThread thread entry stackTop size prio attr]) thread = n := by
  simp [countingFrom, List.foldl_append]

theorem isThreadSuspended_counted (hthread : t.pThread ≠ 0) (n : ℕ) (h : History) :
    ThreadObjects.isThreadSuspended (countingFrom n) t h =
      (decide (0 < (countingFrom n).suspendCount h t.pThread),
        h ++ [.onThread .osIsThreadSuspended t.pThread]) := if_pos hthread

theorem resumeThread_suspended (hthread : t.pThread ≠ 0)
    (hsuspended : 0 < (countingFrom n).suspendCount h t.pThread) :
    ThreadObjects.resumeThread (countingFrom n) t h =
      h ++ [.onThread .osIsThreadSuspended t.pThread] ++ [.onThread .osResumeThread t.pThread] := by
  rw [ThreadObjects.resumeThread, isThreadSuspended_counted hthread, decide_eq_true hsuspended]
  exact if_pos hthread

theorem run_awaitPass_counted (hthread : t.pThread ≠ 0)
    (hcount : (countingFrom n).suspendCount h t.pThread = k) {passes : ℕ} (hpasses : k < passes) :
    run (awaitPass (countingFrom n) t) passes h = some (.ok (h ++ awaited t.pThread k)) := by
  induction k generalizing h passes with
  | zero =>
    obtain ⟨passes, rfl⟩ := Nat.exists_eq_add_one.mpr hpasses
    refine run_done ?_
    rw [awaitPass, isThreadSuspended_counted hthread, hcount]
    rfl
  | succ k ih =>
    obtain ⟨passes, rfl⟩ := Nat.exists_eq_add_one.mpr (Nat.zero_lt_of_lt hpasses)
    have hasked := (count_ask n h t.pThread).trans hcount
    have hpass : awaitPass (countingFrom n) t h = .ok (.inl
        (h ++ [.onThread .osIsThreadSuspended t.pThread] ++
          [.onThread .osIsThreadSuspended t.pThread] ++
          [.onThread .osResumeThread t.pThread])) := by
      rw [awaitPass, isThreadSuspended_counted hthread, decide_eq_true (by omega)]
      dsimp only
      rw [resumeThread_suspended hthread (by omega)]
    rw [run_again hpass, ih ?_ (by omega)]
    · simp [awaited]
    · rw [count_resume, count_ask, hasked, Nat.add_sub_cancel]

theorem freeBuffers_eq (launch : Launch) (core : Core σ) (iAttr : U32) (h : History) :
    ThreadObjects.freeBuffers launch.sizeofOSThread
        ⟨launch.iStackSize, iAttr, core.pThread, core.pThreadStack⟩ h =
      h ++ frees launch core := by
  rw [ThreadObjects.freeBuffers, frees, threadFree]
  split_ifs <;> simp

theorem shutdownThread_counted {core : Core σ} (hserved : core.Served launch) {passes : ℕ}
    (hpasses : k < passes)
    (hcount : core.pThread ≠ 0 → (countingFrom n).suspendCount h core.pThread = k) :
    (shutdownThread (countingFrom n) launch.sizeofOSThread passes ⟨launch.iStackSize,
        launch.iAttr ||| core.affinity, core.pThread, core.pThreadStack⟩ h).map Prod.snd =
      some (h ++ shutDown launch core k) := by
  rw [shutdownThread, Option.map_map, shutDown]
  by_cases hthread : core.pThread ≠ 0
  · have hattached := hserved.attached (hserved.created_iff.mpr hthread)
    rw [awaitThread, if_pos ⟨hthread, not_not.mp hattached⟩,
      run_awaitPass_counted hthread (hcount hthread) hpasses, if_pos hthread]
    dsimp only [Option.map_some, Function.comp_apply]
    rw [freeBuffers_eq, joined, List.append_assoc, List.append_assoc]
    rfl
  · rw [awaitThread_of_not (.inl (not_not.mp hthread)), if_neg hthread, Option.map_some]
    exact congrArg some (freeBuffers_eq ..)

theorem lifetime_counted {core : Core σ} (hserved : core.Served launch) (h : History)
    {passes : ℕ} (hpasses : launch.suspended < passes) :
    lifetime (countingFrom launch.suspended) launch.sizeofOSThread launch.threadCallback passes
        core.pThread core.pThreadStack (launch.iAttr ||| core.affinity) launch.iPriority
        launch.iStackSize [.resumeThread] h =
      some (h ++ coreCalls launch core) := by
  set os := countingFrom launch.suspended with hos
  set opened := h ++ [.memAlloc launch.sizeofOSThread 0x10 core.pThread] ++
    [.memAlloc launch.iStackSize 0x20 core.pThreadStack]
  set creation : Call := .osCreateThread core.pThread launch.threadCallback
    (core.pThreadStack + launch.iStackSize) launch.iStackSize launch.iPriority
    (launch.iAttr ||| core.affinity)
  set made := if core.Created then opened ++ [creation] else opened with hmade
  set object : CThread :=
    ⟨launch.iStackSize, launch.iAttr ||| core.affinity, core.pThread, core.pThreadStack⟩
  -- the constructor, `resumeThread` and the destructor
  have hlife : lifetime os launch.sizeofOSThread launch.threadCallback passes core.pThread
      core.pThreadStack (launch.iAttr ||| core.affinity) launch.iPriority launch.iStackSize
      [.resumeThread] h = (shutdownThread os launch.sizeofOSThread passes object
        (ThreadObjects.resumeThread os object made)).map Prod.snd := rfl
  have hcalls : h ++ coreCalls launch core = made ++ asked launch core launch.suspended := by
    rw [coreCalls, upcoming, created, hmade]
    split_ifs <;> simp [opened, creation]
  rw [hlife, hcalls, asked]
  by_cases hthread : core.pThread ≠ 0
  · have hcreated := hserved.created_iff.mpr hthread
    have hcount : os.suspendCount made core.pThread = launch.suspended := by
      rw [hmade, if_pos hcreated]
      exact count_create ..
    have hasked := (count_ask launch.suspended made core.pThread).trans hcount
    by_cases hsuspended : 0 < launch.suspended
    · have hresume : ThreadObjects.resumeThread os object made = made ++
          [.onThread .osIsThreadSuspended core.pThread] ++
          [.onThread .osResumeThread core.pThread] :=
        resumeThread_suspended (t := object) hthread (lt_of_lt_of_eq hsuspended hcount.symm)
      rw [hresume, if_pos hthread, if_pos hsuspended,
        shutdownThread_counted hserved (k := launch.suspended - 1) (by omega) fun _ => by
          rw [count_resume, hasked], shutDown, if_pos hthread, resumed]
      simp
    · have hresume : ThreadObjects.resumeThread os object made =
          made ++ [.onThread .osIsThreadSuspended core.pThread] := by
        rw [ThreadObjects.resumeThread, isThreadSuspended_counted (t := object) hthread,
          decide_eq_false (fun h => hsuspended (lt_of_lt_of_eq h hcount))]
      rw [hresume, if_pos hthread, if_neg hsuspended,
        shutdownThread_counted hserved hpasses fun _ => hasked]
      simp
  · have hresume : ThreadObjects.resumeThread os object made = made := by
      rw [ThreadObjects.resumeThread, ThreadObjects.isThreadSuspended,
        if_neg (show ¬ object.pThread ≠ 0 from hthread)]
    rw [hresume, if_neg hthread, shutdownThread_counted hserved hpasses fun h => absurd h hthread]

theorem runOnCores_counted {cores : List (Core σ)} (hserved : ∀ core ∈ cores, core.Served launch)
    (h : History) {passes : ℕ} (hpasses : launch.suspended < passes) :
    runOnCores (countingFrom launch.suspended) launch.sizeofOSThread launch.threadCallback passes
        launch.iAttr launch.iPriority launch.iStackSize
        (cores.map fun core => (core.affinity, core.pThread, core.pThreadStack)) h =
      some (h ++ cores.flatMap (coreCalls launch)) := by
  induction cores generalizing h with
  | nil => rw [List.map_nil, runOnCores, List.flatMap_nil, List.append_nil]
  | cons core cores ih =>
    obtain ⟨hfirst, hserved⟩ := List.forall_mem_cons.mp hserved
    rw [List.map_cons, runOnCores, lifetime_counted hfirst h hpasses, Option.bind_some,
      ih hserved, List.flatMap_cons, List.append_assoc]

end Sequential

section Guarantees

variable {launch : Launch}
  {s : State σ} {core : Core σ} {cores rest : List (Core σ)}

theorem start_ok (hserved : ∀ core ∈ cores, core.Served launch) (shared : σ) (h : History) :
    Ok launch (start cores shared h) := by
  refine ⟨hserved, fun _ _ _ => rfl, fun _ => rfl, fun t ht => absurd ht nofun, ?_⟩
  exact fun hdangling => absurd hdangling.1 Bool.false_ne_true

theorem start_outcome (cores : List (Core σ)) (shared : σ) (h : History) :
    (start cores shared h).outcome = runCallbacks cores shared := by
  cases cores <;> rfl

theorem start_calls (cores : List (Core σ)) (shared : σ) (h : History) :
    (start cores shared h).calls launch = h ++ cores.flatMap (coreCalls launch) := by
  cases cores <;> rfl

/-- Whatever order the caller and the threads go on in, they come to an end. The callbacks have
then run as if one after the other, no thread is left, and the caller made its calls core by
core. -/
theorem runOnAllCores_ends (hserved : ∀ core ∈ cores, core.Served launch) (shared : σ)
    (h : History) :
    Ends (step launch) (start cores shared h) fun s =>
      s.cores = [] ∧ s.thread = none ∧ s.shared = runCallbacks cores shared ∧
        s.history = h ++ cores.flatMap (coreCalls launch) := by
  refine ends_of_invariant (I := fun s => Ok launch s ∧ s.outcome = runCallbacks cores shared ∧
    s.calls launch = h ++ cores.flatMap (coreCalls launch)) (State.left launch) ?_ ?_
    ⟨start_ok hserved shared h, start_outcome cores shared h, start_calls cores shared h⟩ ?_
  · rintro p s s' ⟨hok, houtcome, hcalls⟩ hstep
    have hadvances := step_advances p hok hstep
    exact ⟨hadvances.ok, hadvances.outcome.trans houtcome, hadvances.calls.trans hcalls⟩
  · rintro p s s' ⟨hok, _, _⟩ hstep
    exact (step_advances p hok hstep).left
  · rintro s ⟨hok, houtcome, hcalls⟩ hstuck
    have hdone := hok.done_of_stuck hstuck
    simp only [State.outcome, State.calls, hdone, List.append_nil] at houtcome hcalls
    exact ⟨hdone, hok.idle hdone, houtcome, hcalls⟩

def allCores (buffers : Fin 3 → U32 × U32) (callback : Fin 3 → List (σ → σ)) : List (Core σ) :=
  affinities.map fun core =>
    ⟨core.1, (buffers core.2.rev).1, (buffers core.2.rev).2, callback core.2⟩

theorem allCores_served (hattached : ¬ Detached launch.iAttr) {buffers : Fin 3 → U32 × U32}
    (hboth : ∀ i, (buffers i).1 = 0 ∨ (buffers i).2 ≠ 0) (callback : Fin 3 → List (σ → σ)) :
    ∀ core ∈ allCores buffers callback, core.Served launch := by
  have haffinity : ∀ core ∈ affinities, core.1 &&& eAttributeDetach = 0 := by
    simp only [affinities, List.forall_mem_cons, List.not_mem_nil, false_imp_iff, implies_true,
      and_true]
    decide
  rw [allCores, List.forall_mem_map]
  intro core hcore
  exact ⟨hboth _, fun _ => mt (detached_or launch.iAttr (haffinity core hcore)).mp hattached⟩

/-- In every order of steps `runOnAllCores` ends, after the calls that it makes as a function of
the system's answers. The callbacks have then run one after the other on the cores that got a
thread, and no thread is left. -/
theorem runOnAllCores_interleaved (launch : Launch) (hattached : ¬ Detached launch.iAttr)
    {buffers : Fin 3 → U32 × U32} (hboth : ∀ i, (buffers i).1 = 0 ∨ (buffers i).2 ≠ 0)
    (callback : Fin 3 → List (σ → σ)) (shared : σ) (h : History) :
    ∃ made, (∀ passes, launch.suspended < passes →
        runOnAllCores (countingFrom launch.suspended) launch.sizeofOSThread launch.threadCallback
          passes launch.iAttr launch.iPriority launch.iStackSize buffers h = some (h ++ made)) ∧
      Ends (step launch) (start (allCores buffers callback) shared h) fun s =>
        s.cores = [] ∧ s.thread = none ∧
          s.shared = runCallbacks (allCores buffers callback) shared ∧ s.history = h ++ made :=
  have hserved := allCores_served hattached hboth callback
  ⟨_, fun _ hpasses => runOnCores_counted hserved h hpasses, runOnAllCores_ends hserved shared h⟩

def sampleLaunch : Launch := ⟨1, 0x6A0, 0x02000000, 0, 16, 0x8000⟩

def sampleBuffers : Fin 3 → U32 × U32 := fun _ => (0x10000000, 0x10001000)

def countUp : Fin 3 → List (ℕ × ℕ → ℕ × ℕ) := fun i =>
  [fun x => (x.1 + i, x.2), fun x => (x.1, x.2 + 1)]

example : runCallbacks (allCores sampleBuffers countUp) (0, 0) = (3, 3) := by decide

theorem countUp_interleaved : ∃ made, (∀ passes, 1 < passes →
      runOnAllCores (countingFrom 1) 0x6A0 0x02000000 passes 0 16 0x8000 sampleBuffers [] =
        some ([] ++ made)) ∧
    Ends (step sampleLaunch) (start (allCores sampleBuffers countUp) (0, 0) []) fun s =>
      s.cores = [] ∧ s.thread = none ∧
        s.shared = runCallbacks (allCores sampleBuffers countUp) (0, 0) ∧
        s.history = [] ++ made :=
  runOnAllCores_interleaved sampleLaunch (by decide) (by decide) countUp (0, 0) []

section Detached

theorem caller_goes {s' : State σ} (hsafe : s.freed = false ∨ s.thread = none)
    (hcores : s.cores = core :: rest)
    (hstep : callerStep launch core rest s = some s') : Step (step launch) s s' := by
  have hsafe' : ¬ s.Dangling := by
    rintro ⟨hfreed, t, ht, _⟩
    rcases hsafe with h | h
    · exact Bool.false_ne_true (h.symm.trans hfreed)
    · exact absurd (h.symm.trans ht) nofun
  refine ⟨.caller, ?_⟩
  simp only [step, if_neg hsafe', hcores]
  exact hstep

theorem reaches_next (hnull : core.pThread = 0) (shared : σ) (freed : Bool) (h : History) :
    ∃ freed' h', Reaches (step launch)
      ⟨shared, core :: rest, .allocThread, none, freed, h⟩
      ⟨shared, rest, .allocThread, none, freed', h'⟩ := by
  have hcreated : ¬ core.Created := fun h => h.1 hnull
  have hfree (freed : Bool) (h : History) : ∃ freed' h', callerStep launch core rest
      ⟨shared, core :: rest, .freeStack, none, freed, h⟩ =
        some ⟨shared, core :: rest, .freeThread, none, freed', h'⟩ := by
    by_cases hstack : core.pThreadStack ≠ 0
    · exact ⟨_, _, if_pos hstack⟩
    · exact ⟨_, _, if_neg hstack⟩
  obtain ⟨freed', h', hstack⟩ := hfree freed
    (h ++ [.memAlloc launch.sizeofOSThread 0x10 core.pThread] ++
      [.memAlloc launch.iStackSize 0x20 core.pThreadStack] ++ [] ++ [] ++ [])
  exact ⟨_, _, .head (caller_goes (.inr rfl) rfl rfl) <|
    .head (caller_goes (.inr rfl) rfl rfl) <|
    .head (caller_goes (.inr rfl) rfl (if_neg hcreated)) <|
    .head (caller_goes (.inr rfl) rfl (if_neg (not_not.mpr hnull))) <|
    .head (caller_goes (.inr rfl) rfl (if_neg fun h => h.1 hnull)) <|
    .head (caller_goes (.inr rfl) rfl hstack) <|
    .single (caller_goes (.inr rfl) rfl rfl)⟩

/-- The stack of a detached thread can be freed before the thread has run. -/
theorem reaches_dangling (hcreated : core.Created)
    (hdetached : Detached (launch.iAttr ||| core.affinity)) (shared : σ) (freed : Bool)
    (h : History) :
    ∃ s, Reaches (step launch)
      ⟨shared, core :: rest, .allocThread, none, freed, h⟩ s ∧ s.Dangling := by
  have hlast (k : ℕ) (h : History) : ∃ s,
      Reaches (step launch)
        ⟨shared, core :: rest, .askWhile, some ⟨k, core.callback, false⟩, false, h⟩ s ∧
        s.Dangling :=
    ⟨_, .head (caller_goes (.inl rfl) rfl (if_neg fun h => h.2 hdetached)) <|
      .single (caller_goes (.inl rfl) rfl (if_pos hcreated.2)), rfl, _, rfl, rfl⟩
  have hask (h : History) : callerStep launch core rest
      ⟨shared, core :: rest, .askFirst, some ⟨launch.suspended, core.callback, false⟩, false, h⟩ =
        some ⟨shared, core :: rest, if 0 < launch.suspended then .resumeFirst else .askWhile,
          some ⟨launch.suspended, core.callback, false⟩, false,
          h ++ [.onThread .osIsThreadSuspended core.pThread]⟩ := if_pos hcreated.1
  have hopen : Reaches (step launch)
      ⟨shared, core :: rest, .allocThread, none, freed, h⟩ _ :=
    .head (caller_goes (.inr rfl) rfl rfl) <|
    .head (caller_goes (.inr rfl) rfl rfl) <|
    .head (caller_goes (.inr rfl) rfl (if_pos hcreated)) <|
    .single (caller_goes (.inl rfl) rfl (hask _))
  by_cases hsuspended : 0 < launch.suspended
  · rw [if_pos hsuspended] at hopen
    obtain ⟨s, hreach, hdangling⟩ := hlast (launch.suspended - 1) _
    exact ⟨s, hopen.trans (.head (caller_goes (.inl rfl) rfl rfl) hreach), hdangling⟩
  · rw [if_neg hsuspended] at hopen
    obtain ⟨s, hreach, hdangling⟩ := hlast launch.suspended _
    exact ⟨s, hopen.trans hreach, hdangling⟩

/-- A thread that lacks its memory while it is not done can come about exactly if the threads are
detached and there is memory for one. -/
theorem runOnAllCores_safe_iff (hboth : ∀ core ∈ cores, core.pThread = 0 ∨ core.pThreadStack ≠ 0)
    (haffinity : ∀ core ∈ cores, core.affinity &&& eAttributeDetach = 0) (shared : σ)
    (h : History) :
    (∀ s, Reaches (step launch) (start cores shared h) s → ¬ s.Dangling) ↔
      ¬ Detached launch.iAttr ∨ ∀ core ∈ cores, ¬ core.Created := by
  constructor
  · suffices hall : ∀ freed h, (∀ s, Reaches (step launch)
        ⟨shared, cores, .allocThread, none, freed, h⟩ s → ¬ s.Dangling) →
        ¬ Detached launch.iAttr ∨ ∀ core ∈ cores, ¬ core.Created from hall false h
    induction cores with
    | nil => exact fun _ _ _ => .inr (fun core hcore => absurd hcore List.not_mem_nil)
    | cons core rest ih =>
      obtain ⟨hfirst, hboth⟩ := List.forall_mem_cons.mp hboth
      obtain ⟨haff, haffinity⟩ := List.forall_mem_cons.mp haffinity
      intro freed h hsafe
      by_cases hcreated : core.Created
      · refine .inl fun hdetached => ?_
        obtain ⟨s, hreach, hdangling⟩ := reaches_dangling hcreated
          ((detached_or launch.iAttr haff).mpr hdetached) shared freed h
        exact hsafe s hreach hdangling
      · have hnull : core.pThread = 0 := by
          rw [Core.Created] at hcreated
          tauto
        obtain ⟨freed', h', hnext⟩ := reaches_next hnull shared freed h
        rcases ih hboth haffinity freed' h' fun s hreach => hsafe s (hnext.trans hreach) with
          hattached | hnone
        · exact .inl hattached
        · exact .inr (List.forall_mem_cons.mpr ⟨hcreated, hnone⟩)
  · intro hcond s hreach
    have hserved : ∀ core ∈ cores, core.Served launch := fun core hcore =>
      ⟨hboth core hcore, fun hcreated => by
        rw [detached_or launch.iAttr (haffinity core hcore)]
        exact hcond.resolve_right fun hnone => hnone core hcore hcreated⟩
    have hok : Ok launch s := Reaches.invariant
      (fun p u u' hok hstep => (step_advances p hok hstep).ok) (start_ok hserved shared h) hreach
    exact hok.safe

theorem detached_safe_iff :
    (∀ s, Reaches (step { sampleLaunch with iAttr := eAttributeDetach })
      (start [(⟨eAttributeAffCore2, 0x10000000, 0x10001000, []⟩ : Core Unit)] () []) s →
        ¬ s.Dangling) ↔
      ¬ Detached eAttributeDetach ∨
        ∀ core ∈ [(⟨eAttributeAffCore2, 0x10000000, 0x10001000, []⟩ : Core Unit)], ¬ core.Created :=
  runOnAllCores_safe_iff (by simp) (by simp [eAttributeAffCore2, eAttributeDetach]) () []

end Detached

end Guarantees

end MemoryMappingModule.CoreThreads
