import MemoryMappingModule.StepLoop
import MemoryMappingModule.SystemCalls

/-! Thread objects. The constructor allocates the memory of a thread and its stack and
creates the thread if it got both; the methods ask the system about the thread if its memory
was allocated; `shutdownThread` joins the thread, unless it is detached, and frees both. -/

namespace MemoryMappingModule.ThreadObjects

open StepLoop MappingLayout SystemCalls CallOrder

/-- The fields of a thread object that its methods read; 0 is the null pointer. -/
structure CThread where
  iStackSize : U32
  iAttributes : U32
  pThread : U32
  pThreadStack : U32
deriving DecidableEq, Repr

def eAttributeAffCore0 : U32 := 0x01
def eAttributeAffCore1 : U32 := 0x02
def eAttributeAffCore2 : U32 := 0x04
def eAttributeDetach : U32 := 0x08

section Program

variable (os : OS) (sizeofOSThread threadCallback : U32)

/-- The constructor, from what the two allocations return. -/
def construct (pThread pThreadStack iAttr iPriority stacksize : U32) (h : History) :
    CThread × History :=
  let h := h ++ [.memAlloc sizeofOSThread 0x10 pThread]
  let h := h ++ [.memAlloc stacksize 0x20 pThreadStack]
  let h :=
    if pThread ≠ 0 ∧ pThreadStack ≠ 0 then
      h ++ [.osCreateThread pThread threadCallback (pThreadStack + stacksize) stacksize iPriority
        iAttr]
    else h
  (⟨stacksize, iAttr, pThread, pThreadStack⟩, h)

def isThreadSuspended (t : CThread) (h : History) : Bool × History :=
  if t.pThread ≠ 0 then
    (decide (0 < os.suspendCount h t.pThread), h ++ [.onThread .osIsThreadSuspended t.pThread])
  else (false, h)

def suspendThread (t : CThread) (h : History) : History :=
  match isThreadSuspended os t h with
  | (true, h) => h
  | (false, h) => if t.pThread ≠ 0 then h ++ [.onThread .osSuspendThread t.pThread] else h

def resumeThread (t : CThread) (h : History) : History :=
  match isThreadSuspended os t h with
  | (false, h) => h
  | (true, h) => if t.pThread ≠ 0 then h ++ [.onThread .osResumeThread t.pThread] else h

def setThreadPriority (t : CThread) (prio : U32) (h : History) : History :=
  if t.pThread ≠ 0 then h ++ [.onThread (.osSetThreadPriority prio) t.pThread] else h

def isThreadTerminated (t : CThread) (h : History) : Bool × History :=
  if t.pThread ≠ 0 then
    (os.isTerminated h t.pThread, h ++ [.onThread .osIsThreadTerminated t.pThread])
  else (false, h)

def getThreadAffinity (t : CThread) (h : History) : BitVec 16 × History :=
  if t.pThread ≠ 0 then
    (os.affinity h t.pThread, h ++ [.onThread .osGetThreadAffinity t.pThread])
  else (0, h)

/-- `while (isThreadSuspended()) resumeThread();`, one pass. -/
def awaitPass (t : CThread) (h : History) : Except Empty (History ⊕ History) :=
  match isThreadSuspended os t h with
  | (true, h) => .ok (.inl (resumeThread os t h))
  | (false, h) => .ok (.inr h)

/-- The part of `shutdownThread` that waits for the thread to finish. -/
def awaitThread (passes : ℕ) (t : CThread) (h : History) : Option History :=
  if t.pThread ≠ 0 ∧ t.iAttributes &&& eAttributeDetach = 0 then
    match run (awaitPass os t) passes h with
    | some (.ok h) => some (h ++ [.onThread .osJoinThread t.pThread])
    | _ => none
  else some h

/-- The part of `shutdownThread` that frees the memory. -/
def freeBuffers (t : CThread) (h : History) : History :=
  let h :=
    if t.pThreadStack ≠ 0 then
      h ++ [.memset t.pThreadStack t.iStackSize, .memFree t.pThreadStack]
    else h
  if t.pThread ≠ 0 then h ++ [.memset t.pThread sizeofOSThread, .memFree t.pThread] else h

def shutdownThread (passes : ℕ) (t : CThread) (h : History) : Option (CThread × History) :=
  (awaitThread os passes t h).map fun h =>
    ({ t with pThread := 0, pThreadStack := 0 }, freeBuffers sizeofOSThread t h)

inductive Method where
  | suspendThread
  | resumeThread
  | setThreadPriority (prio : U32)
  | isThreadSuspended
  | isThreadTerminated
  | getThreadAffinity
  | shutdownThread
deriving DecidableEq, Repr

def call (passes : ℕ) (s : CThread × History) : Method → Option (CThread × History)
  | .suspendThread => some (s.1, suspendThread os s.1 s.2)
  | .resumeThread => some (s.1, resumeThread os s.1 s.2)
  | .setThreadPriority prio => some (s.1, setThreadPriority s.1 prio s.2)
  | .isThreadSuspended => some (s.1, (isThreadSuspended os s.1 s.2).2)
  | .isThreadTerminated => some (s.1, (isThreadTerminated os s.1 s.2).2)
  | .getThreadAffinity => some (s.1, (getThreadAffinity os s.1 s.2).2)
  | .shutdownThread => shutdownThread os sizeofOSThread passes s.1 s.2

def callsThenDestroy (passes : ℕ) : List Method → CThread × History → Option History
  | [], s => (shutdownThread os sizeofOSThread passes s.1 s.2).map Prod.snd
  | m :: methods, s =>
    (call os sizeofOSThread passes s m).bind (callsThenDestroy passes methods)

def lifetime (passes : ℕ) (pThread pThreadStack iAttr iPriority stacksize : U32)
    (methods : List Method) (h : History) : Option History :=
  callsThenDestroy os sizeofOSThread passes methods
    (construct sizeofOSThread threadCallback pThread pThreadStack iAttr iPriority stacksize h)

/-- The loop of `runOnAllCores` over affinities, each with what the two allocations for its
thread object return. -/
def runOnCores (passes : ℕ) (iAttr iPriority iStackSize : U32) :
    List (U32 × U32 × U32) → History → Option History
  | [], h => some h
  | (aff, pThread, pThreadStack) :: cores, h =>
    (lifetime os sizeofOSThread threadCallback passes pThread pThreadStack (iAttr ||| aff) iPriority
      iStackSize [.resumeThread] h).bind (runOnCores passes iAttr iPriority iStackSize cores)

def runOnAllCores (passes : ℕ) (iAttr iPriority iStackSize : U32) (buffers : Fin 3 → U32 × U32)
    (h : History) : Option History :=
  runOnCores os sizeofOSThread threadCallback passes iAttr iPriority iStackSize
    [(eAttributeAffCore2, buffers 0), (eAttributeAffCore1, buffers 1),
      (eAttributeAffCore0, buffers 2)] h

end Program

def affinities : List (U32 × Fin 3) :=
  [(eAttributeAffCore2, 2), (eAttributeAffCore1, 1), (eAttributeAffCore0, 0)]

section Uses

variable {os : OS} {sizeofOSThread threadCallback : U32} {t : CThread} {h h' h'' : History}

def Uses (thread : U32) (c : Call) : Prop := ∃ f, f ≠ .osJoinThread ∧ c = .onThread f thread

def Asked (t : CThread) (h h' : History) : Prop :=
  ∃ uses, h' = h ++ uses ∧ (∀ c ∈ uses, Uses t.pThread c) ∧ (uses = [] ↔ t.pThread = 0)

theorem asked_of_null (hnull : t.pThread = 0) : Asked t h h :=
  ⟨[], (List.append_nil h).symm, by simp, by simp [hnull]⟩

theorem asked_of_use (hthread : t.pThread ≠ 0) {f : ThreadFunction} (hf : f ≠ .osJoinThread) :
    Asked t h (h ++ [.onThread f t.pThread]) := by
  refine ⟨[.onThread f t.pThread], rfl, ?_, iff_of_false (List.cons_ne_nil _ _) hthread⟩
  intro c hc
  exact ⟨f, hf, List.mem_singleton.mp hc⟩

theorem asked_guarded {f : ThreadFunction} (hf : f ≠ .osJoinThread) :
    Asked t h (if t.pThread ≠ 0 then h ++ [.onThread f t.pThread] else h) := by
  split_ifs with hthread
  · exact asked_of_use hthread hf
  · exact asked_of_null (not_not.mp hthread)

theorem Asked.trans (hfirst : Asked t h h') (hrest : Asked t h' h'') : Asked t h h'' := by
  obtain ⟨uses, rfl, huses, hnone⟩ := hfirst
  obtain ⟨more, rfl, hmore, hnone'⟩ := hrest
  refine ⟨uses ++ more, List.append_assoc _ _ _, ?_, ?_⟩
  · intro c hc
    rcases List.mem_append.mp hc with hc | hc
    · exact huses c hc
    · exact hmore c hc
  · rw [List.append_eq_nil_iff, hnone, hnone', and_self]

theorem isThreadSuspended_of_ne (hthread : t.pThread ≠ 0) : isThreadSuspended os t h =
    (decide (0 < os.suspendCount h t.pThread),
      h ++ [.onThread .osIsThreadSuspended t.pThread]) := by
  rw [isThreadSuspended, if_pos hthread]

theorem isThreadSuspended_asked (os : OS) (t : CThread) (h : History) :
    Asked t h (isThreadSuspended os t h).2 := by
  rw [isThreadSuspended, apply_ite Prod.snd]
  exact asked_guarded (by decide)

theorem suspendThread_asked : Asked t h (suspendThread os t h) := by
  have hask := isThreadSuspended_asked os t h
  rw [suspendThread]
  split <;> rename_i hsuspended <;> rw [hsuspended] at hask
  · exact hask
  · exact hask.trans (asked_guarded (by decide))

theorem resumeThread_asked : Asked t h (resumeThread os t h) := by
  have hask := isThreadSuspended_asked os t h
  rw [resumeThread]
  split <;> rename_i hsuspended <;> rw [hsuspended] at hask
  · exact hask
  · exact hask.trans (asked_guarded (by decide))

theorem call_asked (os : OS) (sizeofOSThread : U32) (t : CThread) (h : History) {m : Method}
    (hm : m ≠ .shutdownThread) :
    ∃ h', (∀ passes, call os sizeofOSThread passes (t, h) m = some (t, h')) ∧ Asked t h h' := by
  cases m with
  | suspendThread => exact ⟨_, fun _ => rfl, suspendThread_asked⟩
  | resumeThread => exact ⟨_, fun _ => rfl, resumeThread_asked⟩
  | setThreadPriority prio => exact ⟨_, fun _ => rfl, asked_guarded (by simp)⟩
  | isThreadSuspended => exact ⟨_, fun _ => rfl, isThreadSuspended_asked os t h⟩
  | isThreadTerminated =>
    refine ⟨_, fun _ => rfl, ?_⟩
    rw [isThreadTerminated, apply_ite Prod.snd]
    exact asked_guarded (by decide)
  | getThreadAffinity =>
    refine ⟨_, fun _ => rfl, ?_⟩
    rw [getThreadAffinity, apply_ite Prod.snd]
    exact asked_guarded (by decide)
  | shutdownThread => exact absurd rfl hm

end Uses

section Lifetimes

variable {os : OS} {sizeofOSThread threadCallback : U32} {t : CThread} {h h' : History}
  {passes : ℕ} {methods : List Method}

def Detached (iAttributes : U32) : Prop := iAttributes &&& eAttributeDetach ≠ 0

instance (iAttributes : U32) : Decidable (Detached iAttributes) :=
  inferInstanceAs (Decidable (_ ≠ _))

def CThread.emptied (t : CThread) : CThread := { t with pThread := 0, pThreadStack := 0 }

/-- What an object does last about its buffers: the join, unless it is detached, and the
frees. -/
def closing (sizeofOSThread : U32) (t : CThread) : History :=
  freeBuffers sizeofOSThread t
    (if t.pThread ≠ 0 ∧ ¬ Detached t.iAttributes then [.onThread .osJoinThread t.pThread] else [])

theorem freeBuffers_append (h h' : History) :
    freeBuffers sizeofOSThread t (h ++ h') = h ++ freeBuffers sizeofOSThread t h' := by
  rw [freeBuffers, freeBuffers]
  split_ifs <;> simp

theorem awaitThread_of_not (hnot : t.pThread = 0 ∨ Detached t.iAttributes) :
    awaitThread os passes t h = some h := by
  rw [awaitThread, if_neg]
  rintro ⟨hthread, hattached⟩
  rcases hnot with hnull | hdetached
  · exact hthread hnull
  · exact hdetached hattached

theorem run_awaitPass_asked (hrun : run (awaitPass os t) passes h = some (.ok h')) :
    Asked t h h' := by
  induction passes generalizing h with
  | zero => simp [run] at hrun
  | succ passes ih =>
    have hask := isThreadSuspended_asked os t h
    rw [run, awaitPass] at hrun
    cases hsuspended : isThreadSuspended os t h with
    | mk suspended asked =>
      rw [hsuspended] at hrun hask
      cases suspended with
      | true => exact hask.trans (resumeThread_asked.trans (ih hrun))
      | false =>
        obtain rfl := Except.ok.inj (Option.some.inj hrun)
        exact hask

theorem shutdownThread_shape {s : CThread × History}
    (hshut : shutdownThread os sizeofOSThread passes t h = some s) :
    s.1 = t.emptied ∧ ∃ uses, s.2 = h ++ uses ++ closing sizeofOSThread t ∧
      (∀ c ∈ uses, Uses t.pThread c) ∧
      (t.pThread = 0 ∨ Detached t.iAttributes → uses = []) := by
  obtain ⟨awaited, hawait, rfl⟩ := Option.map_eq_some_iff.mp hshut
  refine ⟨rfl, ?_⟩
  dsimp only
  by_cases hnot : t.pThread = 0 ∨ Detached t.iAttributes
  · rw [awaitThread_of_not hnot] at hawait
    obtain rfl := Option.some.inj hawait
    have hjoin : ¬ (t.pThread ≠ 0 ∧ ¬ Detached t.iAttributes) := by tauto
    refine ⟨[], ?_, by simp, fun _ => rfl⟩
    rw [closing, if_neg hjoin, List.append_nil, ← freeBuffers_append, List.append_nil]
  · have hjoin : t.pThread ≠ 0 ∧ ¬ Detached t.iAttributes := by tauto
    rw [awaitThread, if_pos ⟨hjoin.1, not_not.mp hjoin.2⟩] at hawait
    split at hawait
    · next resumed hrun =>
      obtain ⟨uses, rfl, huses, _⟩ := run_awaitPass_asked hrun
      obtain rfl := Option.some.inj hawait
      refine ⟨uses, ?_, huses, fun h => absurd h hnot⟩
      rw [closing, if_pos hjoin, ← freeBuffers_append]
    · cases hawait

/-- The object is asked something before it is shut down. -/
def AsksFirst : List Method → Prop
  | [] => False
  | m :: _ => m ≠ .shutdownThread

instance (methods : List Method) : Decidable (AsksFirst methods) :=
  match methods with
  | [] => inferInstanceAs (Decidable False)
  | m :: _ => inferInstanceAs (Decidable (m ≠ .shutdownThread))

theorem shutdownThread_emptied (h : History) :
    shutdownThread os sizeofOSThread passes t.emptied h = some (t.emptied, h) := by
  rw [shutdownThread, awaitThread_of_not (.inl rfl)]
  rfl

theorem callsThenDestroy_emptied (methods : List Method) (h : History) :
    callsThenDestroy os sizeofOSThread passes methods (t.emptied, h) = some h := by
  induction methods with
  | nil => rw [callsThenDestroy, shutdownThread_emptied, Option.map_some]
  | cons m methods ih =>
    have hcall : call os sizeofOSThread passes (t.emptied, h) m = some (t.emptied, h) := by
      by_cases hm : m = .shutdownThread
      · rw [hm]
        exact shutdownThread_emptied h
      · obtain ⟨h', hcall, uses, rfl, _, hnone⟩ := call_asked os sizeofOSThread
          t.emptied h hm
        rw [hcall passes, hnone.mpr rfl, List.append_nil]
    rw [callsThenDestroy, hcall, Option.bind_some, ih]

theorem callsThenDestroy_shape
    (hcalls : callsThenDestroy os sizeofOSThread passes methods (t, h) = some h') :
    ∃ uses, h' = h ++ uses ++ closing sizeofOSThread t ∧ (∀ c ∈ uses, Uses t.pThread c) ∧
      (t.pThread = 0 → uses = []) ∧
      (t.pThread ≠ 0 → Detached t.iAttributes → (uses = [] ↔ ¬ AsksFirst methods)) := by
  induction methods generalizing h with
  | nil =>
    obtain ⟨s, hshut, rfl⟩ := Option.map_eq_some_iff.mp hcalls
    obtain ⟨_, uses, hmade, huses, hnone⟩ := shutdownThread_shape hshut
    exact ⟨uses, hmade, huses, fun hnull => hnone (.inl hnull),
      fun _ hdetached => iff_of_true (hnone (.inr hdetached)) not_false⟩
  | cons m methods ih =>
    obtain ⟨s, hcall, hrest⟩ := Option.bind_eq_some_iff.mp hcalls
    by_cases hm : m = .shutdownThread
    · subst hm
      obtain ⟨hemptied, uses, hmade, huses, hnone⟩ := shutdownThread_shape hcall
      obtain ⟨emptied, shut⟩ := s
      obtain rfl : emptied = t.emptied := hemptied
      rw [callsThenDestroy_emptied] at hrest
      obtain rfl := Option.some.inj hrest
      exact ⟨uses, hmade, huses, fun hnull => hnone (.inl hnull),
        fun _ hdetached => iff_of_true (hnone (.inr hdetached)) (not_not.mpr rfl)⟩
    · obtain ⟨asked, hcall', uses, rfl, huses, hnone⟩ := call_asked os sizeofOSThread t h hm
      obtain rfl := Option.some.inj (hcall.symm.trans (hcall' passes))
      obtain ⟨more, rfl, hmore, hnull, _⟩ := ih hrest
      refine ⟨uses ++ more, by simp only [List.append_assoc], ?_, fun hthread => ?_,
        fun hthread _ => ?_⟩
      · intro c hc
        rcases List.mem_append.mp hc with hc | hc
        · exact huses c hc
        · exact hmore c hc
      · rw [hnone.mpr hthread, hnull hthread, List.append_nil]
      · refine iff_of_false (fun h => ?_) (not_not.mpr hm)
        exact hthread (hnone.mp (List.append_eq_nil_iff.mp h).1)

theorem awaitPass_lowers (hos : os.Resumes) (hthread : t.pThread ≠ 0)
    (hcreated : Created h t.pThread) :
    (∃ r, awaitPass os t h = .ok (.inr r) ∧ True) ∨
      ∃ u, awaitPass os t h = .ok (.inl u) ∧ Created u t.pThread ∧
        os.suspendCount u t.pThread < os.suspendCount h t.pThread := by
  rw [awaitPass, isThreadSuspended_of_ne hthread]
  by_cases hzero : 0 < os.suspendCount h t.pThread
  · have hasked := hcreated.append [.onThread .osIsThreadSuspended t.pThread]
    have haskedAgain := hasked.append [.onThread .osIsThreadSuspended t.pThread]
    have hfirst := hos.ask h t.pThread hcreated
    have hsecond := hos.ask _ t.pThread hasked
    have hresume := hos.resume _ t.pThread haskedAgain
    rw [decide_eq_true hzero]
    refine .inr ⟨_, rfl, ?_⟩
    rw [resumeThread, isThreadSuspended_of_ne hthread]
    by_cases hagain : 0 < os.suspendCount (h ++ [.onThread .osIsThreadSuspended t.pThread])
        t.pThread
    · rw [decide_eq_true hagain]
      dsimp only
      rw [if_pos hthread]
      exact ⟨haskedAgain.append _, by omega⟩
    · rw [decide_eq_false hagain]
      dsimp only
      exact ⟨haskedAgain, by omega⟩
  · rw [decide_eq_false hzero]
    exact .inl ⟨_, rfl, trivial⟩

theorem awaitThread_ends (hos : os.Resumes)
    (hends : t.pThread = 0 ∨ Detached t.iAttributes ∨ Created h t.pThread) :
    ∃ passes h', awaitThread os passes t h = some h' := by
  by_cases hnot : t.pThread = 0 ∨ Detached t.iAttributes
  · exact ⟨0, h, awaitThread_of_not hnot⟩
  · have hthread : t.pThread ≠ 0 := by tauto
    have hattached : ¬ Detached t.iAttributes := by tauto
    have hcreated : Created h t.pThread := by tauto
    obtain ⟨resumed, hrun, _⟩ := run_of_invariant (fun h => Created h t.pThread)
      (fun h => os.suspendCount h t.pThread) (fun _ => awaitPass_lowers hos hthread) hcreated
    refine ⟨os.suspendCount h t.pThread + 1, resumed ++ [.onThread .osJoinThread t.pThread], ?_⟩
    rw [awaitThread, if_pos ⟨hthread, not_not.mp hattached⟩, hrun]

theorem callsThenDestroy_ends (hos : os.Resumes) (methods : List Method)
    (hends : t.pThread = 0 ∨ Detached t.iAttributes ∨ Created h t.pThread) :
    ∃ passes h', callsThenDestroy os sizeofOSThread passes methods (t, h) = some h' := by
  induction methods generalizing h with
  | nil =>
    obtain ⟨passes, awaited, hawait⟩ := awaitThread_ends hos hends
    refine ⟨passes, freeBuffers sizeofOSThread t awaited, ?_⟩
    rw [callsThenDestroy, shutdownThread, hawait]
    rfl
  | cons m methods ih =>
    by_cases hm : m = .shutdownThread
    · obtain ⟨passes, awaited, hawait⟩ := awaitThread_ends hos hends
      have hcall : call os sizeofOSThread passes (t, h) m =
          some (t.emptied, freeBuffers sizeofOSThread t awaited) := by
        rw [hm, call, shutdownThread, hawait]
        rfl
      refine ⟨passes, freeBuffers sizeofOSThread t awaited, ?_⟩
      rw [callsThenDestroy, hcall, Option.bind_some, callsThenDestroy_emptied]
    · obtain ⟨asked, hcall, uses, rfl, _⟩ := call_asked os sizeofOSThread t h hm
      obtain ⟨passes, h', hrest⟩ := ih (hends.imp_right (.imp_right (·.append uses)))
      exact ⟨passes, h', by rw [callsThenDestroy, hcall passes, Option.bind_some, hrest]⟩

end Lifetimes

section Histories

variable {os : OS}
  {sizeofOSThread threadCallback pThread pThreadStack iAttr iPriority stacksize : U32}
  {t : CThread} {uses : History} {c : Call}

def opening (sizeofOSThread threadCallback pThread pThreadStack iAttr iPriority stacksize : U32) :
    History :=
  (construct sizeofOSThread threadCallback pThread pThreadStack iAttr iPriority stacksize []).2

theorem construct_eq (h : History) :
    construct sizeofOSThread threadCallback pThread pThreadStack iAttr iPriority stacksize h =
      (⟨stacksize, iAttr, pThread, pThreadStack⟩, h ++ opening sizeofOSThread threadCallback pThread
        pThreadStack iAttr iPriority stacksize) := by
  rw [opening, construct, construct]
  split_ifs <;> simp

theorem mem_opening (hc : c ∈ opening sizeofOSThread threadCallback pThread pThreadStack iAttr
    iPriority stacksize) :
    (∃ size align p, c = .memAlloc size align p ∧ (p = pThread ∨ p = pThreadStack)) ∨
      (∃ entry stackTop, c = .osCreateThread pThread entry stackTop stacksize iPriority iAttr) ∧
        pThread ≠ 0 ∧ pThreadStack ≠ 0 := by
  rw [opening, construct] at hc
  dsimp only at hc
  split_ifs at hc with hboth
  · simp only [List.nil_append, List.cons_append, List.mem_cons, List.not_mem_nil, or_false] at hc
    rcases hc with rfl | rfl | rfl
    · exact .inl ⟨_, _, _, rfl, .inl rfl⟩
    · exact .inl ⟨_, _, _, rfl, .inr rfl⟩
    · exact .inr ⟨⟨_, _, rfl⟩, hboth⟩
  · simp only [List.nil_append, List.cons_append, List.mem_cons, List.not_mem_nil, or_false] at hc
    rcases hc with rfl | rfl
    · exact .inl ⟨_, _, _, rfl, .inl rfl⟩
    · exact .inl ⟨_, _, _, rfl, .inr rfl⟩

theorem created_opening (hthread : pThread ≠ 0) (hstack : pThreadStack ≠ 0) :
    Created (opening sizeofOSThread threadCallback pThread pThreadStack iAttr iPriority stacksize)
      pThread := by
  rw [opening, construct]
  dsimp only
  rw [if_pos ⟨hthread, hstack⟩]
  exact ⟨_, List.mem_append_right _ (List.mem_singleton_self _), rfl⟩

def joins (t : CThread) : History :=
  if t.pThread ≠ 0 ∧ ¬ Detached t.iAttributes then [.onThread .osJoinThread t.pThread] else []

theorem closing_eq : closing sizeofOSThread t = joins t ++ freeBuffers sizeofOSThread t [] := by
  rw [closing, ← freeBuffers_append, List.append_nil, joins]

theorem frees_eq : freeBuffers sizeofOSThread t [] =
    (if t.pThreadStack ≠ 0 then
      [.memset t.pThreadStack t.iStackSize, .memFree t.pThreadStack] else []) ++
      if t.pThread ≠ 0 then [.memset t.pThread sizeofOSThread, .memFree t.pThread] else [] := by
  rw [freeBuffers]
  split_ifs <;> rfl

theorem mem_frees (hc : c ∈ freeBuffers sizeofOSThread t []) :
    (∃ p size, c = .memset p size) ∨ ∃ p, c = .memFree p := by
  rw [frees_eq] at hc
  simp only [List.mem_append, List.mem_ite_nil_right, List.mem_pair] at hc
  rcases hc with ⟨_, rfl | rfl⟩ | ⟨_, rfl | rfl⟩
  · exact .inl ⟨_, _, rfl⟩
  · exact .inr ⟨_, rfl⟩
  · exact .inl ⟨_, _, rfl⟩
  · exact .inr ⟨_, rfl⟩

theorem count_frees (p : U32) : (freeBuffers sizeofOSThread t []).count (.memFree p) =
    (if t.pThreadStack ≠ 0 ∧ t.pThreadStack = p then 1 else 0) +
      if t.pThread ≠ 0 ∧ t.pThread = p then 1 else 0 := by
  have hone (q size : U32) : ([.memset q size, .memFree q] : History).count (.memFree p) =
      if q = p then 1 else 0 := by
    rw [List.count_cons_of_ne (by simp), List.count_singleton]
    simp
  rw [frees_eq, List.count_append, ite_and, ite_and]
  split_ifs <;> simp_all

/-- The history an object leaves: the constructor, calls about its thread, the join and the
frees. -/
structure Made (sizeofOSThread threadCallback pThread pThreadStack iAttr iPriority stacksize : U32)
    (uses made : History) : Prop where
  made_eq : made = opening sizeofOSThread threadCallback pThread pThreadStack iAttr iPriority
    stacksize ++ uses ++ (joins ⟨stacksize, iAttr, pThread, pThreadStack⟩ ++
      freeBuffers sizeofOSThread ⟨stacksize, iAttr, pThread, pThreadStack⟩ [])
  uses_thread : ∀ c ∈ uses, Uses pThread c
  uses_null : pThread = 0 → uses = []

variable {made : History}

theorem Made.mem_cases
    (h : Made sizeofOSThread threadCallback pThread pThreadStack iAttr iPriority stacksize uses
      made)
    (hc : c ∈ made) :
    (∃ size align p, c = .memAlloc size align p ∧ (p = pThread ∨ p = pThreadStack)) ∨
      ((∃ entry stackTop, c = .osCreateThread pThread entry stackTop stacksize iPriority iAttr) ∧
        pThread ≠ 0 ∧ pThreadStack ≠ 0) ∨
      (c ∈ uses ∧ Uses pThread c) ∨
      (c = .onThread .osJoinThread pThread ∧ pThread ≠ 0 ∧ ¬ Detached iAttr) ∨
      (∃ p size, c = .memset p size) ∨ ∃ p, c = .memFree p := by
  rw [h.made_eq] at hc
  simp only [List.mem_append] at hc
  rcases hc with (hc | hc) | hc | hc
  · rcases mem_opening hc with halloc | hcreate
    · exact .inl halloc
    · exact .inr (.inl hcreate)
  · exact .inr (.inr (.inl ⟨hc, h.uses_thread c hc⟩))
  · rw [joins, List.mem_ite_nil_right] at hc
    exact .inr (.inr (.inr (.inl ⟨List.mem_singleton.mp hc.2, hc.1⟩)))
  · exact .inr (.inr (.inr (.inr (mem_frees hc))))

section Parts

variable
  (h : Made sizeofOSThread threadCallback pThread pThreadStack iAttr iPriority stacksize uses made)

include h

theorem Made.created_iff (t : U32) :
    Created made t ↔ pThread = t ∧ pThread ≠ 0 ∧ pThreadStack ≠ 0 := by
  constructor
  · rintro ⟨c, hc, hcreates⟩
    rcases h.mem_cases hc with ⟨_, _, _, rfl, _⟩ | ⟨⟨_, _, rfl⟩, hboth⟩ | ⟨_, _, _, rfl⟩ |
      ⟨rfl, _⟩ | ⟨_, _, rfl⟩ | ⟨_, rfl⟩
    · exact hcreates.elim
    · exact ⟨hcreates, hboth⟩
    · exact hcreates.elim
    · exact hcreates.elim
    · exact hcreates.elim
    · exact hcreates.elim
  · rintro ⟨rfl, hthread, hstack⟩
    rw [h.made_eq, List.append_assoc]
    exact (created_opening hthread hstack).append _

theorem Made.onThread_cases {f : ThreadFunction} {t : U32} (hc : .onThread f t ∈ made) :
    t = pThread ∧ (.onThread f t ∈ uses ∨ pThread ≠ 0 ∧ ¬ Detached iAttr) := by
  rcases h.mem_cases hc with ⟨_, _, _, hc, _⟩ | ⟨⟨_, _, hc⟩, _⟩ | ⟨huses, _, _, hc⟩ | ⟨hc, hjoin⟩ |
    ⟨_, _, hc⟩ | ⟨_, hc⟩
  · cases hc
  · cases hc
  · exact ⟨(Call.onThread.inj hc).2, .inl huses⟩
  · exact ⟨(Call.onThread.inj hc).2, .inr hjoin⟩
  · cases hc
  · cases hc

theorem Made.join_mem_iff :
    .onThread .osJoinThread pThread ∈ made ↔ pThread ≠ 0 ∧ ¬ Detached iAttr := by
  constructor
  · intro hc
    rcases h.mem_cases hc with ⟨_, _, _, hc, _⟩ | ⟨⟨_, _, hc⟩, _⟩ | ⟨_, f, hf, hc⟩ | ⟨_, hjoin⟩ |
      ⟨_, _, hc⟩ | ⟨_, hc⟩
    · cases hc
    · cases hc
    · exact absurd (Call.onThread.inj hc).1.symm hf
    · exact hjoin
    · cases hc
    · cases hc
  · intro hjoin
    rw [h.made_eq, joins, if_pos hjoin]
    simp

theorem Made.alloc_mem {size align p : U32} (hc : .memAlloc size align p ∈ made) :
    p = pThread ∨ p = pThreadStack := by
  rcases h.mem_cases hc with ⟨_, _, _, hc, hp⟩ | ⟨⟨_, _, hc⟩, _⟩ | ⟨_, _, _, hc⟩ | ⟨hc, _⟩ |
    ⟨_, _, hc⟩ | ⟨_, hc⟩
  · rwa [(Call.memAlloc.inj hc).2.2]
  · cases hc
  · cases hc
  · cases hc
  · cases hc
  · cases hc

theorem Made.free_not_mem (p : U32) :
    .memFree p ∉ opening sizeofOSThread threadCallback pThread pThreadStack iAttr iPriority
      stacksize ++ uses ++ joins ⟨stacksize, iAttr, pThread, pThreadStack⟩ := by
  intro hc
  simp only [List.mem_append] at hc
  rcases hc with (hc | hc) | hc
  · rcases mem_opening hc with ⟨_, _, _, hc, _⟩ | ⟨⟨_, _, hc⟩, _⟩ <;> cases hc
  · obtain ⟨_, _, hc⟩ := h.uses_thread _ hc
    cases hc
  · rw [joins, List.mem_ite_nil_right] at hc
    cases List.mem_singleton.mp hc.2

theorem Made.count_free (p : U32) : made.count (.memFree p) =
    (if pThreadStack ≠ 0 ∧ pThreadStack = p then 1 else 0) +
      if pThread ≠ 0 ∧ pThread = p then 1 else 0 := by
  rw [h.made_eq, ← List.append_assoc, List.count_append, List.count_eq_zero.mpr (h.free_not_mem p),
    count_frees, Nat.zero_add]

theorem Made.freedOnce (hdistinct : pThread ≠ 0 → pThread ≠ pThreadStack) {size align p : U32}
    (hc : .memAlloc size align p ∈ made) (hp : p ≠ 0) : made.count (.memFree p) = 1 := by
  rw [h.count_free]
  rcases h.alloc_mem hc with rfl | rfl
  · rw [if_neg fun heq => hdistinct hp heq.2.symm, if_pos ⟨hp, rfl⟩]
  · rw [if_pos ⟨hp, rfl⟩, if_neg fun heq => hdistinct heq.1 heq.2]

theorem Made.created_preceded_iff :
    (∀ t, Preceded (fun c => ∃ f, c = .onThread f t) (Call.Creates t) made) ↔
      pThread = 0 ∨ pThreadStack ≠ 0 ∨ Detached iAttr ∧ uses = [] := by
  have hunused (hnone : uses = []) (hjoin : ¬ (pThread ≠ 0 ∧ ¬ Detached iAttr)) (t : U32) :
      Preceded (fun c => ∃ f, c = .onThread f t) (Call.Creates t) made := by
    refine preceded_of_forall_not ?_
    rintro _ hc ⟨f, rfl⟩
    rcases (h.onThread_cases hc).2 with huse | hjoined
    · rw [hnone] at huse
      cases huse
    · exact hjoin hjoined
  constructor
  · intro hall
    by_contra hnot
    simp only [not_or, not_not] at hnot
    obtain ⟨hthread, hstack, hused⟩ := hnot
    have hcreated (f : ThreadFunction) (hc : .onThread f pThread ∈ made) : False := by
      obtain ⟨d, hd, hcreates⟩ := (hall pThread).exists_mem hc ⟨f, rfl⟩
      exact ((h.created_iff pThread).mp ⟨d, hd, hcreates⟩).2.2 hstack
    cases hcase : uses with
    | nil =>
      exact hcreated _ (h.join_mem_iff.mpr ⟨hthread, fun hdetached => hused ⟨hdetached, hcase⟩⟩)
    | cons c rest =>
      have hc : c ∈ uses := hcase ▸ List.mem_cons_self
      obtain ⟨f, _, rfl⟩ := h.uses_thread c hc
      refine hcreated f ?_
      rw [h.made_eq]
      exact List.mem_append_left _ (List.mem_append_right _ hc)
  · intro hcond t
    by_cases hthread : pThread = 0
    · exact hunused (h.uses_null hthread) (fun hjoin => hjoin.1 hthread) t
    rcases hcond with hnull | hstack | ⟨hdetached, hnone⟩
    · exact absurd hnull hthread
    · by_cases ht : t = pThread
      · subst ht
        rw [h.made_eq, List.append_assoc]
        refine (preceded_of_forall_not ?_).append (created_opening hthread hstack)
        rintro _ hc ⟨f, rfl⟩
        rcases mem_opening hc with ⟨_, _, _, hc, _⟩ | ⟨⟨_, _, hc⟩, _⟩ <;> cases hc
      · refine preceded_of_forall_not ?_
        rintro _ hc ⟨f, rfl⟩
        exact ht (h.onThread_cases hc).1
    · exact hunused hnone (fun hjoin => hjoin.2 hdetached) t

theorem Made.joined_preceded_iff :
    (∀ t, Created made t →
      Preceded (fun c => ∃ p, c = .memFree p) (fun c => c = .onThread .osJoinThread t) made) ↔
      pThread = 0 ∨ pThreadStack = 0 ∨ ¬ Detached iAttr := by
  constructor
  · intro hall
    by_contra hnot
    simp only [not_or, not_not] at hnot
    obtain ⟨hthread, hstack, hdetached⟩ := hnot
    have hfreed : .memFree pThread ∈ made := by
      rw [← List.one_le_count_iff, h.count_free, if_pos (show pThread ≠ 0 ∧ pThread = pThread from
        ⟨hthread, rfl⟩)]
      exact Nat.le_add_left _ _
    have hcreated := (h.created_iff pThread).mpr ⟨rfl, hthread, hstack⟩
    obtain ⟨d, hd, rfl⟩ := (hall pThread hcreated).exists_mem hfreed ⟨_, rfl⟩
    exact (h.join_mem_iff.mp hd).2 hdetached
  · intro hcond t hcreated
    obtain ⟨rfl, hthread, hstack⟩ := (h.created_iff t).mp hcreated
    have hattached : ¬ Detached iAttr := by tauto
    rw [h.made_eq, ← List.append_assoc]
    refine (preceded_of_forall_not ?_).append ⟨.onThread .osJoinThread pThread, ?_, rfl⟩
    · rintro _ hc ⟨p, rfl⟩
      exact h.free_not_mem p hc
    · rw [joins, if_pos ⟨hthread, hattached⟩]
      exact List.mem_append_right _ (List.mem_singleton_self _)

theorem Made.consistent_iff (hdistinct : pThread ≠ 0 → pThread ≠ pThreadStack) :
    Consistent made ↔ pThread = 0 ∨ (pThreadStack ≠ 0 ∧ ¬ Detached iAttr) ∨
      (pThreadStack = 0 ∧ Detached iAttr ∧ uses = []) := by
  constructor
  · intro hmade
    have hcreated := h.created_preceded_iff.mp hmade.created
    have hjoined := h.joined_preceded_iff.mp hmade.joined
    tauto
  · intro hcond
    refine ⟨h.created_preceded_iff.mpr (by tauto),
      fun size align p hc hp => h.freedOnce hdistinct hc hp,
      h.joined_preceded_iff.mpr (by tauto)⟩

end Parts

end Histories

section Guarantees

variable {os : OS}
  {sizeofOSThread threadCallback pThread pThreadStack iAttr iPriority stacksize : U32}
  {methods : List Method} {h h' : History} {passes : ℕ}

theorem lifetime_made (hlife : lifetime os sizeofOSThread threadCallback passes pThread pThreadStack
    iAttr iPriority stacksize methods h = some h') :
    ∃ uses made, h' = h ++ made ∧ Made sizeofOSThread threadCallback pThread pThreadStack iAttr
      iPriority stacksize uses made ∧
      (pThread ≠ 0 → Detached iAttr → (uses = [] ↔ ¬ AsksFirst methods)) := by
  rw [lifetime, construct_eq] at hlife
  obtain ⟨uses, rfl, huses, hnull, hasks⟩ := callsThenDestroy_shape hlife
  refine ⟨uses, _, ?_, ⟨rfl, huses, hnull⟩, hasks⟩
  rw [closing_eq, ← List.append_assoc h, ← List.append_assoc h]

theorem lifetime_ends (sizeofOSThread threadCallback iPriority stacksize : U32) (hos : os.Resumes)
    (methods : List Method) (h : History)
    (hcond : pThread = 0 ∨ pThreadStack ≠ 0 ∨ Detached iAttr) :
    ∃ passes h', lifetime os sizeofOSThread threadCallback passes pThread pThreadStack iAttr
      iPriority stacksize methods h = some h' := by
  simp only [lifetime, construct_eq]
  refine callsThenDestroy_ends hos methods ?_
  by_cases hthread : pThread = 0
  · exact .inl hthread
  rcases hcond with hnull | hstack | hdetached
  · exact absurd hnull hthread
  · have hcreated : Created (opening sizeofOSThread threadCallback pThread pThreadStack iAttr
        iPriority stacksize) pThread := created_opening hthread hstack
    obtain ⟨c, hc, hcreates⟩ := hcreated
    exact .inr (.inr ⟨c, List.mem_append_right _ hc, hcreates⟩)
  · exact .inr (.inl hdetached)

/-- The history of a thread object, from its constructor to its destructor, is as it should be
exactly if the thread's memory was not allocated, or its stack was too and it is not detached,
or its stack was not, it is detached and it is shut down before anything is asked about it. -/
theorem lifetime_consistent_iff (hos : os.Resumes)
    (hdistinct : pThread ≠ 0 → pThread ≠ pThreadStack) (methods : List Method) (h : History) :
    (∃ passes made, lifetime os sizeofOSThread threadCallback passes pThread pThreadStack iAttr
        iPriority stacksize methods h = some (h ++ made) ∧ Consistent made) ↔
      pThread = 0 ∨ (pThreadStack ≠ 0 ∧ ¬ Detached iAttr) ∨
        (pThreadStack = 0 ∧ Detached iAttr ∧ ¬ AsksFirst methods) := by
  constructor
  · rintro ⟨passes, made, hlife, hmade⟩
    obtain ⟨uses, made', heq, hshape, hasks⟩ := lifetime_made hlife
    obtain rfl := List.append_cancel_left heq
    have hcond := (hshape.consistent_iff hdistinct).mp hmade
    tauto
  · intro hcond
    obtain ⟨passes, h', hlife⟩ := lifetime_ends sizeofOSThread threadCallback iPriority stacksize
      hos methods h (show pThread = 0 ∨ pThreadStack ≠ 0 ∨ Detached iAttr by tauto)
    obtain ⟨uses, made, rfl, hshape, hasks⟩ := lifetime_made hlife
    exact ⟨passes, made, hlife, (hshape.consistent_iff hdistinct).mpr (by tauto)⟩

def countingOS : OS where
  suspendCount h thread := h.foldl (fun n c =>
    match c with
    | .osCreateThread t .. => if t = thread then 1 else n
    | .onThread .osSuspendThread t => if t = thread then n + 1 else n
    | .onThread .osResumeThread t => if t = thread then n - 1 else n
    | _ => n) 0
  isTerminated _ _ := false
  affinity _ _ := 0x07

theorem countingOS_resumes : countingOS.Resumes := by
  constructor
  · intro h t _
    simp [countingOS, List.foldl_append]
  · intro h t _
    simp [countingOS, List.foldl_append]

theorem bothBuffers_consistent :
    ∃ passes made, lifetime countingOS 0x6A0 0x02000000 passes 0x10000000 0x10001000
      eAttributeAffCore2 16 0x8000 [.resumeThread] [] = some ([] ++ made) ∧ Consistent made :=
  (lifetime_consistent_iff countingOS_resumes (by decide) [.resumeThread] []).mpr (by decide)

/-- A core of `runOnAllCores` for which only the stack's allocation fails. -/
theorem noStack_inconsistent :
    ¬ ∀ (os : OS) (sizeofOSThread threadCallback pThread pThreadStack iAttr iPriority
        stacksize : U32) (methods : List Method) (h : History), os.Resumes →
      (pThread ≠ 0 → pThread ≠ pThreadStack) →
      ∃ passes made, lifetime os sizeofOSThread threadCallback passes pThread pThreadStack iAttr
        iPriority stacksize methods h = some (h ++ made) ∧ Consistent made := by
  intro hall
  obtain ⟨passes, made, hlife, hmade⟩ := hall countingOS 0x6A0 0x02000000 0x10000000 0
    eAttributeAffCore2 16 0x8000 [.resumeThread] [] countingOS_resumes (by decide)
  obtain ⟨uses, made', heq, hshape, _⟩ := lifetime_made hlife
  obtain rfl := List.append_cancel_left heq
  have hcond := (hshape.consistent_iff (by decide)).mp hmade
  have hattached : ¬ Detached eAttributeAffCore2 := by decide
  simp [hattached] at hcond

end Guarantees

theorem detached_or (iAttr : U32) {aff : U32} (haff : aff &&& eAttributeDetach = 0) :
    Detached (iAttr ||| aff) ↔ Detached iAttr := by
  rw [Detached, Detached, BitVec.and_or_distrib_right, haff]
  exact not_congr (Eq.congr_left BitVec.or_zero)

end MemoryMappingModule.ThreadObjects
