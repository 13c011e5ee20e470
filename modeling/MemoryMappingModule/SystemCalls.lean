import MemoryMappingModule.CallOrder
import MemoryMappingModule.MappingLayout

/-! What the module asks of the system about threads and their memory, in the order in which
it asks. What the system answers is a function of everything it was asked before, so that
other threads and interrupts may be behind every answer. -/

namespace MemoryMappingModule.SystemCalls

open MappingLayout CallOrder

inductive ThreadFunction where
  | osIsThreadSuspended
  | osSuspendThread
  | osResumeThread
  | osSetThreadPriority (prio : U32)
  | osIsThreadTerminated
  | osGetThreadAffinity
  | osJoinThread
deriving DecidableEq, Repr

inductive Call where
  /-- `gMEMAllocFromDefaultHeapExForThreads`, with its result -/
  | memAlloc (size align result : U32)
  /-- `gMEMFreeToDefaultHeapForThreads` -/
  | memFree (ptr : U32)
  /-- `memset` to zero -/
  | memset (ptr size : U32)
  | osCreateThread (thread entry stackTop stackSize priority attributes : U32)
  | onThread (function : ThreadFunction) (thread : U32)
  | kernelPatchSyscall (index address : U32)
deriving DecidableEq, Repr

abbrev History := List Call

/-- The answers of the system. A thread is suspended while its suspend count is not zero. -/
structure OS where
  suspendCount : History → U32 → ℕ
  isTerminated : History → U32 → Bool
  affinity : History → U32 → BitVec 16

def Call.Creates (thread : U32) : Call → Prop
  | .osCreateThread t .. => t = thread
  | _ => False

instance (thread : U32) : DecidablePred (Call.Creates thread)
  | .osCreateThread t .. => inferInstanceAs (Decidable (t = thread))
  | .memAlloc .. | .memFree _ | .memset .. | .onThread .. | .kernelPatchSyscall .. =>
    inferInstanceAs (Decidable False)

def Created (h : History) (thread : U32) : Prop := ∃ c ∈ h, c.Creates thread

theorem Created.append {h : History} {thread : U32} (hcreated : Created h thread) (h' : History) :
    Created (h ++ h') thread := by
  obtain ⟨c, hc, hcreates⟩ := hcreated
  exact ⟨c, List.mem_append_left _ hc, hcreates⟩

/-- `OSResumeThread` lowers the suspend count of a thread, `OSIsThreadSuspended` leaves it. -/
structure OS.Resumes (os : OS) : Prop where
  ask : ∀ h t, Created h t →
    os.suspendCount (h ++ [.onThread .osIsThreadSuspended t]) t ≤ os.suspendCount h t
  resume : ∀ h t, Created h t →
    os.suspendCount (h ++ [.onThread .osResumeThread t]) t ≤ os.suspendCount h t - 1

/-- A history in which threads and their memory are used as they should be. -/
structure Consistent (h : History) : Prop where
  /-- Only a thread that was created before is handed to a function about threads. -/
  created : ∀ t, Preceded (fun c => ∃ f, c = .onThread f t) (Call.Creates t) h
  freedOnce : ∀ size align p, .memAlloc size align p ∈ h → p ≠ 0 → h.count (.memFree p) = 1
  /-- Nothing is freed before the thread was joined. -/
  joined : ∀ t, Created h t →
    Preceded (fun c => ∃ p, c = .memFree p) (fun c => c = .onThread .osJoinThread t) h

end MemoryMappingModule.SystemCalls
